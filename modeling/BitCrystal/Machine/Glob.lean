import Mathlib.Computability.Language

/-! # Glob patterns

A pattern is a list of tokens: a letter stands for itself, `one` for any letter and `star` for any word. What a pattern
matches is the product of the languages of its tokens.
-/

namespace Glob

open Language

variable {α : Type*}

inductive Token (α : Type*)
  | star
  | one
  | letter (a : α)

/-- The words that one token stands for. -/
def Token.language : Token α → Language α
  | .star => ⊤
  | .one => {word | ∃ a, word = [a]}
  | .letter a => {[a]}

def language (pattern : List (Token α)) : Language α := (pattern.map Token.language).prod

variable {pattern : List (Token α)} {word : List α} {a b : α}

theorem language_cons (token : Token α) (pattern : List (Token α)) :
    language (token :: pattern) = token.language * language pattern := by
  rw [language, List.map_cons, List.prod_cons]
  rfl

theorem mem_nil : word ∈ language ([] : List (Token α)) ↔ word = [] := mem_one word

/-- A star stands for nothing, or takes a letter and stays. -/
theorem nil_mem_star : [] ∈ language (.star :: pattern) ↔ [] ∈ language pattern := by
  rw [language_cons, mem_mul]
  constructor
  · rintro ⟨front, -, rest, member, whole⟩
    rwa [(List.append_eq_nil_iff.mp whole).2] at member
  · intro member
    exact ⟨[], trivial, [], member, rfl⟩

theorem cons_mem_star :
    a :: word ∈ language (.star :: pattern) ↔ a :: word ∈ language pattern ∨ word ∈ language (.star :: pattern) := by
  simp only [language_cons, mem_mul]
  constructor
  · rintro ⟨front, -, rest, member, whole⟩
    cases front with
    | nil => exact .inl (whole ▸ member)
    | cons b front => exact .inr ⟨front, trivial, rest, member, (List.cons.inj whole).2⟩
  · rintro (member | ⟨front, -, rest, member, rfl⟩)
    · exact ⟨[], trivial, a :: word, member, rfl⟩
    · exact ⟨a :: front, trivial, rest, member, rfl⟩

theorem nil_notMem_one : [] ∉ language (.one :: pattern) := by
  rw [language_cons, mem_mul]
  rintro ⟨-, ⟨a, rfl⟩, rest, -, whole⟩
  cases whole

theorem cons_mem_one : a :: word ∈ language (.one :: pattern) ↔ word ∈ language pattern := by
  rw [language_cons, mem_mul]
  constructor
  · rintro ⟨-, ⟨b, rfl⟩, rest, member, whole⟩
    obtain ⟨-, rfl⟩ := List.cons.inj whole
    exact member
  · intro member
    exact ⟨[a], ⟨a, rfl⟩, word, member, rfl⟩

theorem nil_notMem_letter : [] ∉ language (.letter b :: pattern) := by
  rw [language_cons, mem_mul]
  rintro ⟨front, rfl, rest, -, whole⟩
  cases whole

theorem cons_mem_letter : a :: word ∈ language (.letter b :: pattern) ↔ a = b ∧ word ∈ language pattern := by
  rw [language_cons, mem_mul]
  constructor
  · rintro ⟨front, rfl, rest, member, whole⟩
    obtain ⟨rfl, rfl⟩ := List.cons.inj whole
    exact ⟨rfl, member⟩
  · rintro ⟨rfl, member⟩
    exact ⟨[a], rfl, word, member, rfl⟩

end Glob
