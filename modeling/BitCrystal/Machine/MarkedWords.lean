import Mathlib.Data.List.Infix

/-! # Characters written as marked words

Each character of a text is written as a word that starts with a run of marks. The words are replaced by their
characters one after the other, each at all its occurrences. If no word contains such a run further back, and the
characters of the text that are marks themselves come in short runs, an occurrence of a word is a word of the text,
also when some words are replaced already.
-/

namespace MarkedWords

variable {α : Type} [DecidableEq α]

/-- All occurrences of `search` from the left, behind the number of characters that are to be skipped. -/
def replaceAll (search new : List α) : ℕ → List α → List α
  | _, [] => []
  | skip + 1, _ :: rest => replaceAll search new skip rest
  | 0, c :: rest =>
    if search <+: c :: rest then new ++ replaceAll search new (search.length - 1) rest
    else c :: replaceAll search new 0 rest

variable {search new : List α}

theorem replaceAll_skip (skipped rest : List α) :
    replaceAll search new skipped.length (skipped ++ rest) = replaceAll search new 0 rest := by
  induction skipped with
  | nil => rfl
  | cons c skipped ih => exact ih

theorem replaceAll_match (nonempty : search ≠ []) (rest : List α) :
    replaceAll search new 0 (search ++ rest) = new ++ replaceAll search new 0 rest := by
  obtain ⟨c, tail, rfl⟩ := List.exists_cons_of_ne_nil nonempty
  rw [List.cons_append, replaceAll, if_pos ⟨rest, rfl⟩, List.length_cons, Nat.add_sub_cancel, replaceAll_skip]

variable {rest : List α} {c : α}

/-- Where no occurrence starts nothing is replaced. -/
theorem replaceAll_pass {passed : List α} (quiet : ∀ o < passed.length, ¬ search <+: passed.drop o ++ rest) :
    replaceAll search new 0 (passed ++ rest) = passed ++ replaceAll search new 0 rest := by
  induction passed with
  | nil => rfl
  | cons c passed ih =>
    have here : ¬ search <+: c :: (passed ++ rest) := quiet 0 (Nat.succ_pos _)
    rw [List.cons_append, replaceAll, if_neg here, List.cons_append]
    exact congrArg (c :: ·) (ih fun o inside => quiet (o + 1) (Nat.succ_lt_succ inside))

/-! ## Runs of marks -/

variable {mark : α}

/-- The number of marks a text starts with. -/
def lead (mark : α) : List α → ℕ
  | [] => 0
  | c :: text => if c = mark then lead mark text + 1 else 0

/-- What follows them. -/
def body (mark : α) : List α → List α
  | [] => []
  | c :: text => if c = mark then body mark text else c :: text

theorem replicate_append_body (text : List α) : List.replicate (lead mark text) mark ++ body mark text = text := by
  induction text with
  | nil => rfl
  | cons c text ih =>
    rw [lead, body]
    split
    next same => rw [same, List.replicate_succ, List.cons_append, ih]
    next => rfl

theorem lead_of_replicate (n : ℕ) (other : c ≠ mark) (rest : List α) :
    lead mark (List.replicate n mark ++ c :: rest) = n := by
  induction n with
  | zero => exact if_neg other
  | succ n ih =>
    rw [List.replicate_succ, List.cons_append, lead, if_pos rfl, ih]

theorem body_of_replicate (n : ℕ) (other : c ≠ mark) (rest : List α) :
    body mark (List.replicate n mark ++ c :: rest) = c :: rest := by
  induction n with
  | zero => exact if_neg other
  | succ n ih =>
    rw [List.replicate_succ, List.cons_append, body, if_pos rfl, ih]

theorem body_body (text : List α) : body mark (body mark text) = body mark text := by
  induction text with
  | nil => rfl
  | cons c text ih =>
    rw [body]
    split
    next => exact ih
    next other => exact if_neg other

theorem body_ne_mark {text : List α} (same : body mark text = c :: rest) : c ≠ mark := by
  induction text with
  | nil => cases same
  | cons a text ih =>
    rw [body] at same
    split at same
    · exact ih same
    next other =>
      cases same
      exact other

theorem lead_cons_le (c : α) (text : List α) : lead mark (c :: text) ≤ lead mark text + 1 := by
  rw [lead]
  split <;> omega

/-- A word at the start of a text has the run of marks the text has, if something follows its own. -/
theorem run_of_start {word text : List α} {n : ℕ} {a : α} (nonempty : body mark word ≠ [])
    (at' : word <+: text) (other : a ≠ mark) (same : text = List.replicate n mark ++ a :: rest) :
    lead mark word = n ∧ body mark word <+: a :: rest := by
  obtain ⟨tail, rfl⟩ := at'
  obtain ⟨c, sig, shape⟩ := List.exists_cons_of_ne_nil nonempty
  have whole : word ++ tail = List.replicate (lead mark word) mark ++ c :: (sig ++ tail) := by
    conv_lhs => rw [← @replicate_append_body α _ mark word, shape]
    rw [List.append_assoc, List.cons_append]
  have both := congrArg (lead mark) (whole.symm.trans same)
  rw [lead_of_replicate _ (body_ne_mark shape), lead_of_replicate _ other] at both
  refine ⟨both, tail, ?_⟩
  have bodies := congrArg (body mark) (whole.symm.trans same)
  rw [body_of_replicate _ (body_ne_mark shape), body_of_replicate _ other] at bodies
  rw [shape, List.cons_append, bodies]

/-- The words of some characters, with runs of at least `least` marks, and at most `tail` marks at an end. -/
structure Code (mark : α) (word : α → List α) (chars : List α) (least tail : ℕ) : Prop where
  least_le : ∀ c ∈ chars, least ≤ lead mark (word c)
  some : ∀ c ∈ chars, body mark (word c) ≠ []
  /-- Further back in a word there is no such run. -/
  inner : ∀ c ∈ chars, ∀ s, s <:+ body mark (word c) → s ≠ [] →
    (∃ j ≤ tail, s = List.replicate j mark) ∨ body mark s ≠ [] ∧ lead mark s < least
  apart : ∀ c ∈ chars, ∀ c' ∈ chars, c ≠ c' → ∀ rest, ¬ body mark (word c) <+: body mark (word c') ++ rest

/-- The text with the words of the characters that are not replaced yet. -/
def render (word : α → List α) (done : α → Bool) (text : List α) : List α :=
  text.flatMap fun c => if done c then [c] else word c

omit [DecidableEq α] in
theorem render_cons (word : α → List α) (done : α → Bool) (c : α) (text : List α) :
    render word done (c :: text) = (if done c then [c] else word c) ++ render word done text :=
  rfl

namespace Code

variable {word : α → List α} {chars : List α} {least tail : ℕ} {done : α → Bool} {c : α} {text : List α}

section

variable (code : Code mark word chars least tail)
include code

/-- An occurrence behind a short run of marks is a word of the text, and there are no marks before it. -/
theorem occurrence (known : c ∈ chars) (all : ∀ a ∈ text, a ∈ chars) {k : ℕ} (short : k + lead mark text < least)
    (at' : word c <+: List.replicate k mark ++ render word done text) :
    k = 0 ∧ ∃ rest, text = c :: rest ∧ done c = false := by
  induction text generalizing k with
  | nil =>
    rw [render, List.flatMap_nil, List.append_nil] at at'
    obtain ⟨a, sig, shape⟩ := List.exists_cons_of_ne_nil (code.some c known)
    have member : a ∈ word c := by
      rw [← @replicate_append_body α _ mark (word c), shape]
      exact List.mem_append_right _ (List.mem_cons_self ..)
    exact absurd (List.eq_of_mem_replicate (at'.subset member)) (body_ne_mark shape)
  | cons a text ih =>
    have inside := code.least_le c known
    rw [render, List.flatMap_cons] at at'
    change word c <+: List.replicate k mark ++ (_ ++ render word done text) at at'
    cases finished : done a with
    | true =>
      rw [finished, if_pos rfl] at at'
      rw [lead] at short
      rcases eq_or_ne a mark with rfl | other
      · rw [if_pos rfl] at short
        have longer : List.replicate k a ++ ([a] ++ render word done text) =
            List.replicate (k + 1) a ++ render word done text := by
          rw [List.replicate_succ', List.append_assoc]
        rw [longer] at at'
        have zero := (ih (fun b member => all b (List.mem_cons_of_mem _ member)) (by omega) at').1
        omega
      · have run := (run_of_start (code.some c known) at' other rfl).1
        rw [if_neg other] at short
        omega
    | false =>
      rw [finished, if_neg Bool.false_ne_true] at at'
      have member := all a (List.mem_cons_self ..)
      obtain ⟨b, sig, shape⟩ := List.exists_cons_of_ne_nil (code.some a member)
      have split : List.replicate k mark ++ (word a ++ render word done text) =
          List.replicate (k + lead mark (word a)) mark ++ b :: (sig ++ render word done text) := by
        conv_lhs => rw [← @replicate_append_body α _ mark (word a), shape]
        rw [List.replicate_add]
        simp only [List.append_assoc, List.cons_append]
      obtain ⟨run, signature⟩ := run_of_start (code.some c known) at' (body_ne_mark shape) split
      rcases eq_or_ne c a with rfl | different
      · exact ⟨by omega, text, rfl, finished⟩
      · rw [← List.cons_append, ← shape] at signature
        exact absurd signature (code.apart c known a member different _)

/-- Inside another word no occurrence starts. -/
theorem quiet {a : α} (known : c ∈ chars) (member : a ∈ chars)
    (different : c ≠ a) (all : ∀ a ∈ text, a ∈ chars) (short : lead mark text + tail < least)
    {s : List α} (behind : s <:+ word a) (nonempty : s ≠ []) : ¬ word c <+: s ++ render word done text := by
  intro at'
  have meaning := code.some c known
  have inside := code.least_le c known
  have fromMark {n : ℕ} {x : List α} (begins : s = List.replicate n mark ++ x) (other : body mark x = x) (more : x ≠ []) :
      lead mark (word c) = n ∧ body mark (word c) <+: x ++ render word done text := by
    obtain ⟨b, sig, shape⟩ := List.exists_cons_of_ne_nil more
    rw [shape] at other begins ⊢
    apply run_of_start meaning at' (body_ne_mark other)
    rw [begins, List.append_assoc]
    rfl
  have whole : List.replicate (lead mark (word a)) mark ++ body mark (word a) = word a := replicate_append_body _
  rcases List.suffix_or_suffix_of_suffix behind (⟨_, whole⟩ : body mark (word a) <:+ word a) with within | before
  · rcases code.inner a member s within nonempty with ⟨j, few, rfl⟩ | ⟨more, less⟩
    · have zero := (code.occurrence known all (by omega) at').1
      exact nonempty (by rw [zero, List.replicate_zero])
    · have run := (fromMark (replicate_append_body s).symm (body_body s) more).1
      omega
  · obtain ⟨z, rfl⟩ := before
    have marks : z <:+ List.replicate (lead mark (word a)) mark := by
      rwa [← @List.suffix_append_self_iff _ _ _ (body mark (word a)), whole]
    have marks := (List.suffix_replicate_iff.mp marks).2
    have signature := (fromMark (congrArg (· ++ body mark (word a)) marks) (body_body _) (code.some a member)).2
    exact code.apart c known a member different _ signature

/-- One replacement turns each word of one character into the character, and changes nothing else. -/
theorem replaceAll_render (known : c ∈ chars) (fresh : done c = false)
    (all : ∀ a ∈ text, a ∈ chars) (short : ∀ s, s <:+ text → lead mark s + tail < least) :
    replaceAll (word c) [c] 0 (render word done text) = render word (fun a => done a || a == c) text := by
  induction text with
  | nil => rfl
  | cons a text ih =>
    have member := all a (List.mem_cons_self ..)
    have allRest : ∀ b ∈ text, b ∈ chars := fun b inRest => all b (List.mem_cons_of_mem _ inRest)
    have rest := ih allRest fun s behind => short s (behind.trans (List.suffix_cons ..))
    have nonempty : word c ≠ [] := fun empty => code.some c known (by rw [empty]; rfl)
    rw [render_cons, render_cons]
    cases finished : done a with
    | true =>
      have pass : ∀ o < [a].length, ¬ word c <+: [a].drop o ++ render word done text := by
        intro o first at'
        obtain rfl : o = 0 := Nat.lt_one_iff.mp first
        have shape : [a].drop 0 ++ render word done text = List.replicate 0 mark ++ render word done (a :: text) := by
          rw [render_cons, finished]
          rfl
        rw [shape] at at'
        have here := short _ List.suffix_rfl
        obtain ⟨-, _, same, unfinished⟩ := code.occurrence known all (by omega) at'
        cases same
        rw [finished] at unfinished
        cases unfinished
      rw [if_pos rfl, replaceAll_pass pass, rest, Bool.true_or, if_pos rfl]
    | false =>
      rw [if_neg Bool.false_ne_true, Bool.false_or]
      rcases eq_or_ne a c with rfl | different
      · rw [replaceAll_match nonempty, rest, if_pos (beq_self_eq_true a)]
      · have pass : ∀ o < (word a).length, ¬ word c <+: (word a).drop o ++ render word done text := by
          intro o inside
          apply code.quiet known member different.symm allRest (short text (List.suffix_cons ..)) (List.drop_suffix ..)
          exact List.ne_nil_of_length_pos (by rw [List.length_drop]; omega)
        rw [replaceAll_pass pass, rest, if_neg (by rw [beq_iff_eq]; exact different)]

/-- The replacements of some characters, one after the other. -/
theorem foldl_replaceAll (all : ∀ a ∈ text, a ∈ chars)
    (short : ∀ s, s <:+ text → lead mark s + tail < least) {cs : List α} (known : ∀ c ∈ cs, c ∈ chars)
    (once : cs.Nodup) (fresh : ∀ c ∈ cs, done c = false) :
    cs.foldl (fun s c => replaceAll (word c) [c] 0 s) (render word done text) =
      render word (fun a => done a || decide (a ∈ cs)) text := by
  induction cs generalizing done with
  | nil => simp only [List.foldl_nil, List.not_mem_nil, decide_false, Bool.or_false]
  | cons c cs ih =>
    obtain ⟨new, once⟩ := List.nodup_cons.mp once
    rw [List.foldl_cons, code.replaceAll_render (known c (List.mem_cons_self ..)) (fresh c (List.mem_cons_self ..)) all
      short, ih (fun b member => known b (List.mem_cons_of_mem _ member)) once]
    · congr 1
      funext a
      rw [Bool.or_assoc, Bool.eq_iff_iff]
      simp only [Bool.or_eq_true, beq_iff_eq, decide_eq_true_eq, List.mem_cons]
    · intro b member
      rw [fresh b (List.mem_cons_of_mem _ member), Bool.false_or, beq_eq_false_iff_ne]
      rintro rfl
      exact new member

/-- If each character of the text is replaced, the text is what remains. -/
theorem foldl_replaceAll_text {cs : List α}
    (short : ∀ s, s <:+ text → lead mark s + tail < least) (known : ∀ c ∈ cs, c ∈ chars) (once : cs.Nodup)
    (all : ∀ a ∈ text, a ∈ cs) : cs.foldl (fun s c => replaceAll (word c) [c] 0 s) (text.flatMap word) = text := by
  have start : text.flatMap word = render word (fun _ => false) text := rfl
  rw [start, code.foldl_replaceAll (fun a member => known a (all a member)) short known once fun _ _ => rfl]
  unfold render
  have each : text.flatMap (fun a => if (false || decide (a ∈ cs)) = true then [a] else word a) =
      text.flatMap fun a => [a] :=
    List.flatMap_congr fun a member => if_pos (by rw [Bool.false_or]; exact decide_eq_true (all a member))
  rw [each, List.flatMap_singleton']

end

end Code

end MarkedWords
