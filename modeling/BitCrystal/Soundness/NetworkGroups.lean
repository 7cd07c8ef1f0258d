import BitCrystal.Model.AddrMan

/-! # Network groups are prefixes

Routable addresses fall into four classes, each with a number of bits that decides the group: the first bits of an IPv4
address, wherever it is embedded, or of the address itself. A class and such a number are written as bytes, and the bytes
determine both. The first bits that are tested for he.net are not those of he.net.
-/

namespace BitCrystal

/-- The classes of routable addresses. -/
inductive NetClass
  | ipv4
  | tor
  | heNet
  | ipv6
deriving DecidableEq

namespace NetClass

/-- How many bits the addresses of a group share. -/
def bits : NetClass → ℕ
  | ipv4 => 16
  | tor => 4
  | heNet => 36
  | ipv6 => 32

/-- The class byte and the bits, the last byte filled with ones. -/
def group : NetClass → ℕ → List UInt8
  | ipv4, bits => NET_IPV4 :: [bits / 2 ^ 8, bits].map UInt8.ofNat
  | tor, bits => NET_TOR :: [bits * 16 + 15].map UInt8.ofNat
  | heNet, bits =>
    NET_IPV6 :: [bits / 2 ^ 28, bits / 2 ^ 20, bits / 2 ^ 12, bits / 2 ^ 4, bits * 16 + 15].map UInt8.ofNat
  | ipv6, bits => NET_IPV6 :: [bits / 2 ^ 24, bits / 2 ^ 16, bits / 2 ^ 8, bits].map UInt8.ofNat

theorem ofNat_inj {m n : ℕ} : UInt8.ofNat m = UInt8.ofNat n ↔ m % 256 = n % 256 := by
  rw [← UInt8.toNat_inj, UInt8.toNat_ofNat', UInt8.toNat_ofNat']

theorem group_inj {c d : NetClass} {m n : ℕ} (boundm : m < 2 ^ c.bits) (boundn : n < 2 ^ d.bits)
    (same : c.group m = d.group n) : c = d ∧ m = n := by
  cases c <;> cases d <;> simp only [group, bits, List.map, List.cons.injEq, ofNat_inj] at same boundm boundn
  case ipv4.ipv4 => exact ⟨rfl, by omega⟩
  case tor.tor => exact ⟨rfl, by omega⟩
  case heNet.heNet => exact ⟨rfl, by omega⟩
  case ipv6.ipv6 => exact ⟨rfl, by omega⟩
  all_goals exact absurd same (by simp [NET_IPV4, NET_TOR, NET_IPV6])

/-- No routable address is in the group of the others. -/
theorem group_ne_unroutable (c : NetClass) (bits : ℕ) : c.group bits ≠ [NET_UNROUTABLE] := by
  cases c <;> exact nofun

end NetClass

namespace CNetAddr

/-! ## Classes and prefixes -/

/-- The first 32 bits of the addresses of he.net, 2001:470::/32. -/
def heNet : ℕ := 0x20010470

/-- The first 32 bits for which `GetGroup` uses /36 groups. -/
def heNetTested : ℕ := 0x20110470

variable (addr : CNetAddr) (he : ℕ)

/-- The first bits of an address. -/
def first (bits : ℕ) : ℕ := addr.ip / 2 ^ (128 - bits)

/-- There is an IPv4 address in the last four bytes, as it is. -/
def endsInIPv4 : Bool := addr.isIPv4 ∨ addr.isRFC6145 ∨ addr.isRFC6052

/-- There is an IPv4 address in it. -/
def embedsIPv4 : Bool := addr.endsInIPv4 ∨ addr.isRFC3964 ∨ addr.isRFC4380

/-- Addresses with an IPv4 address embedded are one class, those with the first bits of he.net another one. -/
def netClass : NetClass :=
  if addr.embedsIPv4 then .ipv4
  else if addr.isTor then .tor
  else if addr.first 32 = he then .heNet
  else .ipv6

/-- The IPv4 address: the last four bytes, those behind the prefix of 6to4, or the last four inverted for Teredo. -/
def embeddedIPv4 : ℕ :=
  if addr.endsInIPv4 then addr.ip % 2 ^ 32
  else if addr.isRFC3964 then addr.ip / 2 ^ 80 % 2 ^ 32
  else 2 ^ 32 - 1 - addr.ip % 2 ^ 32

/-- The first bits of the IPv4 address, the four behind the prefix of Tor, or the first of the address. -/
def prefixBits : ℕ :=
  match addr.netClass he with
  | .ipv4 => addr.embeddedIPv4 / 2 ^ 16
  | .tor => addr.ip / 2 ^ 76 % 2 ^ 4
  | .heNet => addr.first 36
  | .ipv6 => addr.first 32

/-- No connection is made to either address, or they are in one class and share its prefix. -/
def SameGroup (a b : CNetAddr) : Prop :=
  (¬ a.isRoutable ∧ ¬ b.isRoutable) ∨
  (a.isRoutable ∧ b.isRoutable ∧ a.netClass he = b.netClass he ∧ a.prefixBits he = b.prefixBits he)

/-- Two addresses of he.net, or two with the tested prefix, that differ in the next four bits. -/
def Parted (a b : CNetAddr) : Prop :=
  (a.first 32 = heNet ∨ a.first 32 = heNetTested) ∧ b.first 32 = a.first 32 ∧ b.first 36 ≠ a.first 36

variable {addr he}

theorem first_lt (bits : ℕ) (few : bits ≤ 128) : addr.first bits < 2 ^ bits := by
  apply Nat.div_lt_of_lt_mul
  rw [← pow_add, Nat.sub_add_cancel few]
  exact addr.ip.isLt

theorem prefixBits_lt : addr.prefixBits he < 2 ^ (addr.netClass he).bits := by
  have embedded : addr.embeddedIPv4 < 2 ^ 32 := by
    unfold embeddedIPv4
    split_ifs <;> omega
  unfold prefixBits
  cases addr.netClass he with
  | ipv4 => simp only [NetClass.bits]; omega
  | tor => exact Nat.mod_lt _ (by decide)
  | heNet => exact first_lt 36 (by decide)
  | ipv6 => exact first_lt 32 (by decide)

theorem getByte_eq (addr : CNetAddr) (n : ℕ) : addr.getByte n = UInt8.ofNat (addr.ip / 256 ^ n) :=
  NetClass.ofNat_inj.mpr (Nat.mod_mod ..)

/-- The low half of the byte is filled. -/
theorem ofNat_or (n : ℕ) : UInt8.ofNat n ||| 15 = UInt8.ofNat (n / 16 * 16 + 15) := by
  have low : ∀ m < 256, m ||| 15 = m / 16 * 16 + 15 := by decide +kernel
  apply UInt8.toNat_inj.mp
  rw [UInt8.toNat_or, UInt8.toNat_ofNat', UInt8.toNat_ofNat']
  change n % 256 ||| 15 = _
  rw [low _ (Nat.mod_lt _ (by decide))]
  omega

/-- The byte is inverted. -/
theorem ofNat_xor (n : ℕ) : UInt8.ofNat n ^^^ 0xff = UInt8.ofNat (255 - n % 256) := by
  have inverted : ∀ m < 256, m ^^^ 255 = 255 - m := by decide +kernel
  apply UInt8.toNat_inj.mp
  rw [UInt8.toNat_xor, UInt8.toNat_ofNat', UInt8.toNat_ofNat']
  change n % 256 ^^^ 255 = _
  rw [inverted _ (Nat.mod_lt _ (by decide))]
  omega

theorem first_36 : addr.first 36 / 16 = addr.first 32 := Nat.div_div_eq_div_mul ..

/-- The test of the code. -/
theorem tested_iff : (addr.getByte 15 = 0x20 ∧ addr.getByte 14 = 0x11 ∧ addr.getByte 13 = 0x04 ∧ addr.getByte 12 = 0x70) ↔
    addr.first 32 = heNetTested := by
  have bound := addr.ip.isLt
  have byte : ∀ n m : ℕ, addr.getByte n = UInt8.ofNat m ↔ addr.ip.val / 256 ^ n % 256 = m % 256 := fun n m => by
    rw [getByte_eq, NetClass.ofNat_inj]
  have bytes := and_congr (byte 15 0x20) (and_congr (byte 14 0x11) (and_congr (byte 13 0x04) (byte 12 0x70)))
  rw [first, heNetTested]
  apply bytes.trans
  omega

theorem groupBytes_ipv4 (nStartByte : ℕ) : addr.groupBytes NET_IPV4 nStartByte 16 =
    [NET_IPV4, addr.getByte (15 - nStartByte), addr.getByte (15 - (nStartByte + 1))] := rfl

theorem getGroup_of_not_routable (unroutable : ¬ addr.isRoutable) : addr.getGroup = [NET_UNROUTABLE] := by
  rw [getGroup, if_pos unroutable]
  rfl

theorem getGroup_ipv4 (routable : addr.isRoutable) (embeds : addr.embedsIPv4) :
    addr.getGroup = NetClass.ipv4.group (addr.embeddedIPv4 / 2 ^ 16) := by
  rw [embedsIPv4, decide_eq_true_eq] at embeds
  have ends : (addr.isIPv4 ∨ addr.isRFC6145 ∨ addr.isRFC6052) ↔ addr.endsInIPv4 := by
    rw [endsInIPv4, decide_eq_true_eq]
  rw [getGroup, if_neg (not_not.mpr routable)]
  simp only [ends, groupBytes_ipv4, embeddedIPv4, getByte_eq, ofNat_xor, NetClass.group, List.map]
  split_ifs with last six four
  case pos | pos =>
    simp only [List.cons.injEq, NetClass.ofNat_inj, and_true, true_and]
    omega
  case pos =>
    simp only [List.cons.injEq, NetClass.ofNat_inj, and_true, true_and]
    omega
  all_goals exact absurd embeds (by tauto)

theorem getGroup_other (routable : addr.isRoutable) (other : ¬ addr.embedsIPv4) :
    addr.getGroup = if addr.isTor then addr.groupBytes NET_TOR 6 4
      else if addr.first 32 = heNetTested then addr.groupBytes NET_IPV6 0 36 else addr.groupBytes NET_IPV6 0 32 := by
  rw [embedsIPv4, decide_eq_true_eq] at other
  obtain ⟨noIPv4, others⟩ := not_or.mp other
  obtain ⟨noSix, noFour⟩ := not_or.mp others
  rw [endsInIPv4, decide_eq_true_eq] at noIPv4
  rw [getGroup, if_neg (not_not.mpr routable), if_neg noIPv4, if_neg noSix, if_neg noFour]
  simp only [tested_iff]

theorem groupBytes_tor : addr.groupBytes NET_TOR 6 4 = NetClass.tor.group (addr.ip / 2 ^ 76 % 2 ^ 4) := by
  change [NET_TOR, addr.getByte 9 ||| 15] = _
  rw [getByte_eq, ofNat_or]
  simp only [NetClass.group, List.map, List.cons.injEq, NetClass.ofNat_inj, and_true, true_and]
  omega

theorem groupBytes_heNet : addr.groupBytes NET_IPV6 0 36 = NetClass.heNet.group (addr.first 36) := by
  change [NET_IPV6, addr.getByte 15, addr.getByte 14, addr.getByte 13, addr.getByte 12, addr.getByte 11 ||| 15] = _
  simp only [first, getByte_eq, ofNat_or, NetClass.group, List.map, List.cons.injEq, NetClass.ofNat_inj, and_true, true_and]
  omega

theorem groupBytes_ipv6 : addr.groupBytes NET_IPV6 0 32 = NetClass.ipv6.group (addr.first 32) := by
  change [NET_IPV6, addr.getByte 15, addr.getByte 14, addr.getByte 13, addr.getByte 12] = _
  simp only [first, getByte_eq, NetClass.group, List.map, List.cons.injEq, NetClass.ofNat_inj, and_true, true_and]
  omega

theorem getGroup_of_routable (routable : addr.isRoutable) :
    addr.getGroup = (addr.netClass heNetTested).group (addr.prefixBits heNetTested) := by
  unfold prefixBits netClass
  by_cases embeds : addr.embedsIPv4
  · simp only [if_pos embeds]
    exact getGroup_ipv4 routable embeds
  · rw [getGroup_other routable embeds, groupBytes_tor, groupBytes_heNet, groupBytes_ipv6]
    simp only [if_neg embeds]
    split_ifs <;> rfl

/-- The groups of the code are the prefixes of the classes, for the prefix it tests. -/
theorem getGroup_eq_iff_sameGroup (a b : CNetAddr) : a.getGroup = b.getGroup ↔ SameGroup heNetTested a b := by
  constructor
  · intro same
    by_cases routable : a.isRoutable <;> by_cases routable' : b.isRoutable
    · rw [getGroup_of_routable routable, getGroup_of_routable routable'] at same
      exact .inr ⟨routable, routable', NetClass.group_inj prefixBits_lt prefixBits_lt same⟩
    · rw [getGroup_of_routable routable, getGroup_of_not_routable routable'] at same
      exact absurd same (NetClass.group_ne_unroutable _ _)
    · rw [getGroup_of_not_routable routable, getGroup_of_routable routable'] at same
      exact absurd same.symm (NetClass.group_ne_unroutable _ _)
    · exact .inl ⟨routable, routable'⟩
  · rintro (⟨unroutable, unroutable'⟩ | ⟨routable, routable', same, bits⟩)
    · rw [getGroup_of_not_routable unroutable, getGroup_of_not_routable unroutable']
    · rw [getGroup_of_routable routable, getGroup_of_routable routable', same, bits]

theorem not_isRoutable_of_isLocal (isLocal : addr.isLocal) : ¬ addr.isRoutable := by
  rw [isRoutable, decide_eq_true_eq]
  exact fun routable => routable.2 (.inr (.inr (.inr (.inr (.inr isLocal)))))

/-- Neither with an IPv4 address embedded nor of Tor. -/
def Plain (addr : CNetAddr) : Prop := ¬ addr.embedsIPv4 ∧ ¬ addr.isTor

theorem key_of_plain (plain : addr.Plain) : (addr.netClass he, addr.prefixBits he) =
    if addr.first 32 = he then (.heNet, addr.first 36) else (.ipv6, addr.first 32) := by
  unfold prefixBits netClass
  simp only [if_neg plain.1, if_neg plain.2]
  split_ifs <;> rfl

theorem key_of_not_plain (embedded : ¬ addr.Plain) : (addr.netClass he, addr.prefixBits he) =
    if addr.embedsIPv4 then (.ipv4, addr.embeddedIPv4 / 2 ^ 16) else (.tor, addr.ip.val / 2 ^ 76 % 2 ^ 4) := by
  unfold prefixBits netClass
  by_cases embeds : addr.embedsIPv4
  · simp only [if_pos embeds]
  · have tor : addr.isTor := not_not.mp fun other => embedded ⟨embeds, other⟩
    simp only [if_neg embeds, if_pos tor]

variable {a b : CNetAddr}

theorem key_eq_iff_of_plain (plain : a.Plain) (plain' : b.Plain) :
    (a.netClass he, a.prefixBits he) = (b.netClass he, b.prefixBits he) ↔
      b.first 32 = a.first 32 ∧ (a.first 32 = he → b.first 36 = a.first 36) := by
  rw [key_of_plain plain, key_of_plain plain']
  split_ifs with known known' known'
  · simp only [Prod.mk.injEq, true_and]
    omega
  · exact iff_of_false nofun fun same => known' (same.1.trans known)
  · exact iff_of_false nofun fun same => known (same.1.symm.trans known')
  · simp only [Prod.mk.injEq, true_and]
    omega

theorem key_ne_of_plain (plain : a.Plain) (embedded : ¬ b.Plain) :
    (a.netClass he, a.prefixBits he) ≠ (b.netClass he, b.prefixBits he) := by
  rw [key_of_plain plain, key_of_not_plain embedded]
  split_ifs <;> exact nofun

/-- Which prefix is taken for he.net matters for parted addresses only. -/
theorem key_eq_congr (whole : ¬ Parted a b) :
    (a.netClass heNetTested, a.prefixBits heNetTested) = (b.netClass heNetTested, b.prefixBits heNetTested) ↔
      (a.netClass heNet, a.prefixBits heNet) = (b.netClass heNet, b.prefixBits heNet) := by
  by_cases plain : a.Plain <;> by_cases plain' : b.Plain
  · rw [key_eq_iff_of_plain plain plain', key_eq_iff_of_plain plain plain']
    refine and_congr_right fun same => ?_
    have next : a.first 32 = heNet ∨ a.first 32 = heNetTested → b.first 36 = a.first 36 := fun known =>
      not_not.mp fun other => whole ⟨known, same, other⟩
    exact iff_of_true (fun known => next (.inr known)) (fun known => next (.inl known))
  · exact iff_of_false (key_ne_of_plain plain plain') (key_ne_of_plain plain plain')
  · exact iff_of_false (key_ne_of_plain plain' plain).symm (key_ne_of_plain plain' plain).symm
  · rw [key_of_not_plain plain, key_of_not_plain plain', key_of_not_plain plain, key_of_not_plain plain']

theorem first_of_startsWith {n pch : ℕ} (long : 4 ≤ n) (short : n ≤ 16) (starts : addr.startsWith n pch) :
    addr.first 32 = pch / 256 ^ (n - 4) := by
  rw [startsWith, decide_eq_true_eq] at starts
  have bytes : (2 : ℕ) ^ (128 - 32) = 256 ^ (16 - n) * 256 ^ (n - 4) := by
    rw [← pow_add, show 16 - n + (n - 4) = 12 by omega]
    rfl
  rw [first, bytes, ← Nat.div_div_eq_div_mul, starts]

theorem getByte_of_first {n : ℕ} (high : 12 ≤ n) : addr.getByte n = UInt8.ofNat (addr.first 32 / 256 ^ (n - 12)) := by
  have bytes : (256 : ℕ) ^ n = 2 ^ (128 - 32) * 256 ^ (n - 12) := by
    rw [show (2 : ℕ) ^ (128 - 32) = 256 ^ 12 from rfl, ← pow_add, Nat.add_sub_cancel' high]
  rw [getByte_eq, first, bytes, Nat.div_div_eq_div_mul]

/-- The addresses of either prefix are plain, and connections are made to them. -/
theorem plain_of_known (known : addr.first 32 = heNet ∨ addr.first 32 = heNetTested) : addr.isRoutable ∧ addr.Plain := by
  have starts : ∀ n pch : ℕ, 4 ≤ n → n ≤ 16 → pch / 256 ^ (n - 4) ≠ heNet → pch / 256 ^ (n - 4) ≠ heNetTested →
      addr.startsWith n pch = false := by
    intro n pch long short other other'
    rw [Bool.eq_false_iff]
    intro start
    rw [first_of_startsWith long short start] at known
    exact known.elim other other'
  have byte15 : addr.getByte 15 = 0x20 := by
    rw [getByte_of_first (by decide)]
    rcases known with known | known <;> rw [known] <;> rfl
  have byte14 : addr.getByte 14 ≠ 0x02 := by
    rw [getByte_of_first (by decide)]
    rcases known with known | known <;> rw [known] <;> decide
  have byte13 : addr.getByte 13 = 0x04 := by
    rw [getByte_of_first (by decide)]
    rcases known with known | known <;> rw [known] <;> rfl
  have ipv4 : addr.isIPv4 = false := starts _ _ (by decide) (by decide) (by decide) (by decide)
  have tor : addr.isTor = false := starts _ _ (by decide) (by decide) (by decide) (by decide)
  have rfc6052 : addr.isRFC6052 = false := starts _ _ (by decide) (by decide) (by decide) (by decide)
  have rfc6145 : addr.isRFC6145 = false := starts _ _ (by decide) (by decide) (by decide) (by decide)
  have rfc4862 : addr.isRFC4862 = false := starts _ _ (by decide) (by decide) (by decide) (by decide)
  have rfc4193 : addr.isRFC4193 = false := by rw [isRFC4193, byte15]; rfl
  have rfc3964 : addr.isRFC3964 = false := decide_eq_false fun both => byte14 both.2
  have rfc4380 : addr.isRFC4380 = false := decide_eq_false fun all => by simp [byte13] at all
  have rfc4843 : addr.isRFC4843 = false := decide_eq_false fun all => by simp [byte13] at all
  have rfc3849 : addr.isRFC3849 = false := decide_eq_false fun all => by simp [byte13] at all
  have shifted := starts 9 0xffff (by decide) (by decide) (by decide) (by decide)
  have empty := starts 16 0 (by decide) (by decide) (by decide) (by decide)
  have loopback := starts 16 1 (by decide) (by decide) (by decide) (by decide)
  constructor
  · simp [isRoutable, isValid, isRFC1918, isRFC3927, isLocal, ipv4, rfc4862, rfc4193, rfc4843, rfc3849, shifted, empty,
      loopback]
  · simp [Plain, embedsIPv4, endsInIPv4, ipv4, tor, rfc6052, rfc6145, rfc3964, rfc4380]

theorem sameGroup_iff : SameGroup he a b ↔ (¬ a.isRoutable ∧ ¬ b.isRoutable) ∨
    (a.isRoutable ∧ b.isRoutable ∧ (a.netClass he, a.prefixBits he) = (b.netClass he, b.prefixBits he)) := by
  rw [Prod.mk.injEq]
  exact Iff.rfl

/-- Of two parted addresses, those of the prefix are in different groups. -/
theorem Parted.sameGroup_iff (parted : Parted a b) : SameGroup he a b ↔ a.first 32 ≠ he := by
  obtain ⟨known, same, next⟩ := parted
  obtain ⟨routable, plain⟩ := plain_of_known known
  obtain ⟨routable', plain'⟩ := plain_of_known (same ▸ known)
  rw [CNetAddr.sameGroup_iff, key_eq_iff_of_plain plain plain']
  simp [routable, routable', same, next]

/-- The groups are those of the classes, except for the pairs that the wrong prefix of he.net parts or leaves together.
Local addresses are not routable. -/
theorem getGroup_eq_iff (a b : CNetAddr) :
    ((a.getGroup = b.getGroup ↔ SameGroup heNet a b) ↔ ¬ Parted a b) ∧ ¬ (a.isLocal ∧ a.isRoutable) := by
  refine ⟨⟨?_, ?_⟩, fun both => not_isRoutable_of_isLocal both.1 both.2⟩
  · rintro agrees parted
    rw [getGroup_eq_iff_sameGroup, parted.sameGroup_iff, parted.sameGroup_iff] at agrees
    rcases parted.1 with known | known <;> rw [known] at agrees <;> exact absurd agrees (by decide)
  · intro whole
    rw [getGroup_eq_iff_sameGroup, sameGroup_iff, sameGroup_iff, key_eq_congr whole]

/-- `2001:470:1000::` and `2001:470:2000::` of he.net are in one group. -/
theorem getGroup_heNet :
    let a : CNetAddr := ⟨0x20010470100000000000000000000000⟩
    let b : CNetAddr := ⟨0x20010470200000000000000000000000⟩
    a.getGroup = b.getGroup ∧ ¬ SameGroup heNet a b := by
  intro a b
  have parted : Parted a b := ⟨.inl (by decide), by decide, by decide⟩
  exact ⟨by decide, fun same => parted.sameGroup_iff.mp same (by decide)⟩

end CNetAddr

end BitCrystal
