import Dsac.Library.NextPermutation
import Dsac.Algorithm.Vector
import Dsac.Container.Graph.Graphviz.LexicalAnalyzer

namespace Dsac.Graph.Tsp

open Dsac.Library Dsac.Graphviz Dsac.Sort

/-! `combinations` of `travelling_salesman_problem.cpp`. -/

/-- The value of decimal digits. -/
def decimal (digits : Text) : Nat := digits.foldl (fun value ch => 10 * value + (ch.toNat - '0'.toNat)) 0

/-- The sign that `std::stoi` reads, and what follows it. -/
def signed : Text → Int × Text
  | '-' :: rest => (-1, rest)
  | '+' :: rest => (1, rest)
  | rest => (1, rest)

/-- `std::stoi`: the number at the start of a string, behind white space. -/
def stoi (str : Text) : Outcome Int :=
  let (sign, rest) := signed (str.dropWhile isSpace)
  match rest.takeWhile Char.isDigit with
  | [] => .error .thrownInvalidArgument
  | digits =>
      let value := sign * decimal digits
      if minInt ≤ value ∧ value ≤ maxInt then .ok value else .error .thrownOutOfRange

/-- `while (n != 0)` -/
def convertLoop : Nat → Int → Int → Int → Outcome Int
  | 0, _, _, _ => .error .fuel
  | fuel + 1, n, factor, total =>
      if n ≠ 0 then do
        let total ← checked (total + (← checked (n.tmod 10 * factor)))
        convertLoop fuel (n.tdiv 10) (← checked (factor * 2)) total
      else .ok total

def convertBinary (n : Int) : Outcome Int := convertLoop (n.natAbs + 1) n 1 0

/-- `do … while (std::next_permutation(str.begin(), str.end()))` -/
def combinationLoop : Nat → Text → List Int → Outcome (List Int)
  | 0, _, _ => .error .fuel
  | fuel + 1, str, result => do
      let mask ← convertBinary (← stoi str)
      match nextPermutation str with
      | some str => combinationLoop fuel str (result ++ [mask])
      | none => .ok (result ++ [mask])

/-- `std::fill(std::next(str.begin(), first), str.end(), value)` -/
def fillFrom (str : Text) (first : Int) (value : Char) : Outcome Text :=
  if 0 ≤ first ∧ first ≤ str.length then
    .ok (str.take first.toNat ++ List.replicate (str.length - first.toNat) value)
  else .error .outOfRange

def combinations (bits size : Int) : Outcome (List Int) :=
  if 0 ≤ size then do
    let str ← fillFrom (List.replicate size.toNat '0') (← checked (size - bits)) '1'
    combinationLoop (str.length.factorial + 1) str []
  else .error .thrownLengthError

/-- Each number below `2 ^ size` with `bits` one-bits stands in the list, and stands there once. -/
def EachOnce (bits size : Nat) (masks : List Int) : Prop :=
  masks.Nodup ∧ ∀ mask, mask ∈ masks ↔ 0 ≤ mask ∧ mask < 2 ^ size ∧ (Nat.digits 2 mask.toNat).count 1 = bits

/-- Binary digits, the least significant one first. -/
abbrev Binary (digits : List Nat) : Prop := ∀ digit ∈ digits, digit < 2

def bitChar (digit : Nat) : Char := if digit = 0 then '0' else '1'

/-- The string of binary digits. -/
def bitText (digits : List Nat) : Text := digits.reverse.map bitChar

variable {digits : List Nat} {digit bits size : Nat}

theorem bitText_cons (digit : Nat) (digits : List Nat) : bitText (digit :: digits) = bitText digits ++ [bitChar digit] := by
  rw [bitText, List.reverse_cons, List.map_append, List.map_singleton, bitText]

theorem bitChar_value (small : digit < 2) : (bitChar digit).toNat - '0'.toNat = digit := by
  interval_cases digit
  · rfl
  · rfl

theorem decimal_bitText (binary : Binary digits) : decimal (bitText digits) = Nat.ofDigits 10 digits := by
  induction digits with
  | nil => rfl
  | cons digit digits inductionHypothesis =>
      obtain ⟨small, binary⟩ := List.forall_mem_cons.mp binary
      have previous := inductionHypothesis binary
      rw [decimal] at previous
      rw [bitText_cons, decimal, List.foldl_append, previous, Nat.ofDigits_cons, List.foldl_cons, List.foldl_nil,
        bitChar_value small]
      exact Nat.add_comm _ _

theorem bitChar_cases (digit : Nat) : bitChar digit = '0' ∨ bitChar digit = '1' := by
  rw [bitChar]
  split_ifs
  · exact Or.inl rfl
  · exact Or.inr rfl

theorem mem_bitText {ch : Char} (member : ch ∈ bitText digits) : ch = '0' ∨ ch = '1' := by
  obtain ⟨digit, _, rfl⟩ := List.mem_map.mp member
  exact bitChar_cases digit

/-- The strings of the permutations are numbers of `int` only if their decimal value is. -/
theorem stoi_bitText (binary : Binary digits) (nonempty : digits ≠ []) :
    stoi (bitText digits) =
      if ((Nat.ofDigits 10 digits : Nat) : Int) ≤ maxInt then .ok ((Nat.ofDigits 10 digits : Nat) : Int)
      else .error .thrownOutOfRange := by
  have value := decimal_bitText binary
  have digitsOnly : (bitText digits).takeWhile Char.isDigit = bitText digits := by
    rw [List.takeWhile_eq_self_iff]
    intro ch member
    rcases mem_bitText member with rfl | rfl
    · rfl
    · rfl
  cases text : bitText digits with
  | nil =>
      rw [bitText, List.map_eq_nil_iff, List.reverse_eq_nil_iff] at text
      exact absurd text nonempty
  | cons first rest =>
      rw [text] at value digitsOnly
      have start : signed ((first :: rest).dropWhile isSpace) = (1, first :: rest) := by
        rcases mem_bitText (by rw [text]; exact List.mem_cons_self .. : first ∈ bitText digits) with rfl | rfl
        · rfl
        · rfl
      have low : minInt ≤ ((Nat.ofDigits 10 digits : Nat) : Int) := by
        rw [minInt]
        omega
      rw [stoi]
      simp only [start, digitsOnly, value, one_mul, low, true_and]

/-- The loop reads the decimal digits as binary ones. -/
theorem convertLoop_ofDigits (binary : Binary digits) {fuel place : Nat} {total : Int} (enough : Nat.ofDigits 10 digits < fuel)
    (short : place + digits.length ≤ 30) (nonneg : 0 ≤ total) (below : total < 2 ^ place) :
    convertLoop fuel ((Nat.ofDigits 10 digits : Nat) : Int) (2 ^ place) total =
      .ok (total + 2 ^ place * ((Nat.ofDigits 2 digits : Nat) : Int)) := by
  induction digits generalizing fuel place total with
  | nil =>
      obtain ⟨fuel, rfl⟩ := Nat.exists_eq_add_one_of_ne_zero (by omega : fuel ≠ 0)
      simp [convertLoop]
  | cons digit digits inductionHypothesis =>
      obtain ⟨small, binary⟩ := List.forall_mem_cons.mp binary
      obtain ⟨fuel, rfl⟩ := Nat.exists_eq_add_one_of_ne_zero (by omega : fuel ≠ 0)
      rw [List.length_cons] at short
      rw [Nat.ofDigits_cons] at enough
      have power : (2 : Int) ^ place ≤ 2 ^ 29 := pow_le_pow_right₀ (by norm_num) (by omega)
      have double : (2 : Int) ^ (place + 1) = 2 ^ place * 2 := pow_succ 2 place
      rw [convertLoop]
      by_cases zero : Nat.ofDigits 10 (digit :: digits) = 0
      · have binaryZero : Nat.ofDigits 2 (digit :: digits) = 0 :=
          Nat.le_zero.mp (zero ▸ Nat.ofDigits_monotone (digit :: digits) (by norm_num))
        rw [if_neg (by rw [zero]; simp), binaryZero]
        simp
      · have last : ((Nat.ofDigits 10 (digit :: digits) : Nat) : Int).tmod 10 = digit := by
          rw [Nat.ofDigits_cons, Int.tmod_eq_emod_of_nonneg (by positivity)]
          omega
        have others : ((Nat.ofDigits 10 (digit :: digits) : Nat) : Int).tdiv 10 = (Nat.ofDigits 10 digits : Nat) := by
          rw [Nat.ofDigits_cons, Int.tdiv_eq_ediv_of_nonneg (by positivity)]
          omega
        have product : 0 ≤ (digit : Int) * 2 ^ place ∧ (digit : Int) * 2 ^ place ≤ 2 ^ place := by
          interval_cases digit
          · simp
          · simp
        rw [Nat.ofDigits_cons] at zero
        have next := inductionHypothesis binary (by omega : Nat.ofDigits 10 digits < fuel) (by omega : place + 1 + digits.length ≤ 30)
          (by omega : 0 ≤ total + digit * 2 ^ place) (by omega)
        rw [if_pos (by rw [Nat.ofDigits_cons]; exact_mod_cast zero), last, others, checked_of_range (by omega) (by omega), Outcome.ok_bind,
          checked_of_range (by omega) (by omega), Outcome.ok_bind, checked_of_range (by omega) (by omega), Outcome.ok_bind,
          ← double, next, Nat.ofDigits_cons]
        congr 1
        push_cast
        rw [double]
        ring

/-- The digits of the string that the permutations start from. -/
def firstDigits (bits size : Nat) : List Nat := List.replicate bits 1 ++ List.replicate (size - bits) 0

theorem Binary.counts (binary : Binary digits) : digits.count 1 = digits.sum ∧ digits.count 0 + digits.sum = digits.length := by
  induction digits with
  | nil => exact ⟨rfl, rfl⟩
  | cons digit digits inductionHypothesis =>
      obtain ⟨small, binary⟩ := List.forall_mem_cons.mp binary
      obtain ⟨ones, zeros⟩ := inductionHypothesis binary
      rw [List.sum_cons, List.length_cons]
      interval_cases digit
      · rw [List.count_cons_of_ne (by decide), List.count_cons_self]
        omega
      · rw [List.count_cons_self, List.count_cons_of_ne (by decide)]
        omega

/-- The permutations are the strings of that length with that many ones. -/
theorem perm_firstDigits (within : bits ≤ size) :
    digits.Perm (firstDigits bits size) ↔ Binary digits ∧ digits.length = size ∧ digits.sum = bits := by
  rw [firstDigits, List.perm_replicate_append_replicate (by decide)]
  constructor
  · rintro ⟨ones, zeros, subset⟩
    have binary : Binary digits := by
      intro digit member
      have := subset member
      simp only [List.mem_cons, List.not_mem_nil, or_false] at this
      omega
    have := binary.counts
    exact ⟨binary, by omega, by omega⟩
  · rintro ⟨binary, length, sum⟩
    have := binary.counts
    refine ⟨by omega, by omega, ?_⟩
    intro digit member
    have := binary digit member
    simp only [List.mem_cons, List.not_mem_nil, or_false]
    omega

theorem bitText_perm {other : List Nat} (perm : digits.Perm other) : (bitText digits).Perm (bitText other) :=
  ((List.reverse_perm digits).trans (perm.trans (List.reverse_perm other).symm)).map bitChar

/-- The digits of a string. -/
def textDigits (str : Text) : List Nat := (str.map fun ch => ch.toNat - '0'.toNat).reverse

theorem textDigits_bitText (binary : Binary digits) : textDigits (bitText digits) = digits := by
  have values : (bitText digits).map (fun ch => ch.toNat - '0'.toNat) = digits.reverse := by
    rw [bitText, List.map_map]
    refine (List.map_congr_left ?_).trans (List.map_id _)
    intro digit member
    exact bitChar_value (binary digit (List.mem_reverse.mp member))
  rw [textDigits, values, List.reverse_reverse]

theorem bitText_textDigits {str : Text} (bits : ∀ ch ∈ str, ch = '0' ∨ ch = '1') : bitText (textDigits str) = str := by
  rw [bitText, textDigits, List.reverse_reverse, List.map_map]
  refine (List.map_congr_left ?_).trans (List.map_id _)
  intro ch member
  rcases bits ch member with rfl | rfl
  · rfl
  · rfl

theorem exists_bitText {str : Text} (perm : str.Perm (bitText digits)) (binary : Binary digits) :
    (textDigits str).Perm digits ∧ str = bitText (textDigits str) := by
  constructor
  · have mapped := perm.map fun ch => ch.toNat - '0'.toNat
    have same := textDigits_bitText binary
    rw [textDigits] at same
    rw [textDigits, ← same]
    exact (List.reverse_perm _).trans (mapped.trans (List.reverse_perm _).symm)
  · rw [bitText_textDigits]
    intro ch member
    exact mem_bitText (perm.subset member)

section

variable {str other : Text} {mask : Text → Int} {result masks : List Int} {fuel : Nat}

/-- The conversion of one string. -/
def encode (str : Text) : Outcome Int := do convertBinary (← stoi str)

theorem combinationLoop_step {value : Int} (here : encode str = .ok value) :
    combinationLoop (fuel + 1) str result =
      match nextPermutation str with
      | some next => combinationLoop fuel next (result ++ [value])
      | none => .ok (result ++ [value]) := by
  obtain ⟨number, read, converted⟩ := Outcome.of_bind here
  rw [combinationLoop, read, Outcome.ok_bind, converted, Outcome.ok_bind]

/-- If every string is converted, the loop visits all later permutations in order. -/
theorem combinationLoop_visits (result : List Int)
    (good : ∀ other, other.Perm str → str ≤ other → encode other = .ok (mask other)) (enough : later str < fuel) :
    ∃ visited : List Text, combinationLoop fuel str result = .ok (result ++ visited.map mask) ∧ visited.Nodup ∧
      ∀ other, other ∈ visited ↔ other.Perm str ∧ str ≤ other := by
  induction fuel generalizing str result with
  | zero => cases enough
  | succ fuel inductionHypothesis =>
      rw [combinationLoop_step (good str (List.Perm.refl str) (le_refl str))]
      cases found : nextPermutation str with
      | none =>
          have last := falling_of_last found
          refine ⟨[str], rfl, List.nodup_singleton str, ?_⟩
          intro other
          rw [List.mem_singleton]
          constructor
          · rintro rfl
            exact ⟨List.Perm.refl other, le_refl other⟩
          · rintro ⟨perm, above⟩
            exact le_antisymm (last.greatest perm) above
      | some next =>
          obtain ⟨perm, less, least⟩ := nextPermutation_least found
          have fewer := later_next found
          obtain ⟨visited, run, nodup, members⟩ := inductionHypothesis (result ++ [mask str])
            (fun other otherPerm above => good other (otherPerm.trans perm) (less.le.trans above)) (by omega)
          refine ⟨str :: visited, ?_, ?_, ?_⟩
          · refine run.trans ?_
            rw [List.map_cons, List.append_assoc, List.singleton_append]
          · refine List.nodup_cons.mpr ⟨?_, nodup⟩
            rw [members]
            exact fun both => not_lt.mpr both.2 less
          · intro other
            rw [List.mem_cons, members]
            constructor
            · rintro (rfl | ⟨otherPerm, above⟩)
              · exact ⟨List.Perm.refl other, le_refl other⟩
              · exact ⟨otherPerm.trans perm, less.le.trans above⟩
            · rintro ⟨otherPerm, above⟩
              rcases above.eq_or_lt with same | greater
              · exact Or.inl same.symm
              · exact Or.inr ⟨otherPerm.trans perm.symm, least other otherPerm greater⟩

/-- The loop returns only if it converts every later permutation. -/
theorem combinationLoop_converts (returned : combinationLoop fuel str result = .ok masks) (perm : other.Perm str)
    (above : str ≤ other) : ∃ value, encode other = .ok value := by
  induction fuel generalizing str result with
  | zero => cases returned
  | succ fuel inductionHypothesis =>
      have here : ∃ value, encode str = .ok value := by
        rw [combinationLoop] at returned
        obtain ⟨number, read, rest⟩ := Outcome.of_bind returned
        obtain ⟨value, converted, _⟩ := Outcome.of_bind rest
        exact ⟨value, by rw [encode, read, Outcome.ok_bind, converted]⟩
      rcases above.eq_or_lt with rfl | greater
      · exact here
      obtain ⟨value, here⟩ := here
      rw [combinationLoop_step here] at returned
      cases found : nextPermutation str with
      | none => exact absurd greater (not_lt.mpr ((falling_of_last found).greatest perm))
      | some next =>
          obtain ⟨nextPerm, _, least⟩ := nextPermutation_least found
          rw [found] at returned
          exact inductionHypothesis returned (perm.trans nextPerm.symm) (least other perm greater)

end

theorem ofDigits_ten_le (binary : Binary digits) : 9 * Nat.ofDigits 10 digits + 1 ≤ 10 ^ digits.length := by
  induction digits with
  | nil => rfl
  | cons digit digits inductionHypothesis =>
      obtain ⟨small, binary⟩ := List.forall_mem_cons.mp binary
      have previous := inductionHypothesis binary
      rw [Nat.ofDigits_cons, List.length_cons, pow_succ]
      omega

theorem encode_bitText (binary : Binary digits) (nonempty : digits ≠ []) (short : digits.length ≤ 10) :
    encode (bitText digits) = .ok ((Nat.ofDigits 2 digits : Nat) : Int) := by
  have bound := ofDigits_ten_le binary
  have power : 10 ^ digits.length ≤ 10 ^ 10 := pow_le_pow_right₀ (by norm_num) short
  have converted := convertLoop_ofDigits binary (Nat.lt_succ_self (Nat.ofDigits 10 digits))
    (by omega : 0 + digits.length ≤ 30) (le_refl 0) (by norm_num)
  rw [encode, stoi_bitText binary nonempty, if_pos (by rw [maxInt]; omega), Outcome.ok_bind, convertBinary, Int.natAbs_natCast]
  simpa using converted

/-- The number of a string that starts with a one and has eleven digits is not in the range of `int`. -/
theorem encode_long (binary : Binary digits) (long : 10 ≤ digits.length) :
    encode (bitText (digits ++ [1])) = .error .thrownOutOfRange := by
  have whole : Binary (digits ++ [1]) := by
    intro digit member
    rcases List.mem_append.mp member with member | member
    · exact binary digit member
    · rw [List.mem_singleton.mp member]
      decide
  have power : 10 ^ 10 ≤ 10 ^ digits.length := pow_le_pow_right₀ (by norm_num) long
  have value : Nat.ofDigits 10 (digits ++ [1]) = Nat.ofDigits 10 digits + 10 ^ digits.length := by
    rw [Nat.ofDigits_append, Nat.ofDigits_singleton, mul_one]
  rw [encode, stoi_bitText whole (by simp), if_neg (by rw [maxInt, value]; omega)]
  rfl

theorem bitText_firstDigits (bits size : Nat) :
    bitText (firstDigits bits size) = List.replicate (size - bits) '0' ++ List.replicate bits '1' := by
  rw [bitText, firstDigits, List.reverse_append, List.reverse_replicate, List.reverse_replicate, List.map_append,
    List.map_replicate, List.map_replicate]
  rfl

theorem sorted_firstDigits (bits size : Nat) : Sorted (bitText (firstDigits bits size)) := by
  rw [bitText_firstDigits]
  refine List.pairwise_append.mpr ⟨?_, ?_, ?_⟩
  · exact List.pairwise_replicate.mpr (Or.inr (le_refl _))
  · exact List.pairwise_replicate.mpr (Or.inr (le_refl _))
  · intro low lowMember high highMember
    rw [List.eq_of_mem_replicate lowMember, List.eq_of_mem_replicate highMember]
    decide

theorem combinations_eq (within : bits ≤ size) (short : size < 2147483648) :
    combinations bits size = combinationLoop (size.factorial + 1) (bitText (firstDigits bits size)) [] := by
  have text := bitText_firstDigits bits size
  have inside : 0 ≤ (size : Int) - bits ∧ (size : Int) - bits ≤ (List.replicate size '0').length := by
    rw [List.length_replicate]
    omega
  have count : ((size : Int) - bits).toNat = size - bits := by omega
  have length : (bitText (firstDigits bits size)).length = size := by
    rw [text, List.length_append, List.length_replicate, List.length_replicate]
    omega
  have filled : fillFrom (List.replicate size '0') ((size : Int) - bits) '1' = .ok (bitText (firstDigits bits size)) := by
    rw [fillFrom, if_pos inside, count, List.take_replicate, List.length_replicate, min_eq_left (by omega),
      Nat.sub_sub_self within, text]
  rw [combinations, if_pos (by omega), checked_of_range (by omega) (by omega), Outcome.ok_bind, Int.toNat_natCast, filled,
    Outcome.ok_bind, length]

/-- With at most ten digits, every string is converted. -/
theorem combinations_short (positive : 1 ≤ bits) (within : bits ≤ size) (short : size ≤ 10) :
    ∃ masks, combinations bits size = .ok masks ∧ EachOnce bits size masks := by
  obtain ⟨binary, length, _⟩ := (perm_firstDigits within).mp (List.Perm.refl _)
  have shape : ∀ other : Text, other.Perm (bitText (firstDigits bits size)) →
      Binary (textDigits other) ∧ (textDigits other).length = size ∧ (textDigits other).sum = bits ∧
        other = bitText (textDigits other) := by
    intro other perm
    obtain ⟨digitsPerm, same⟩ := exists_bitText perm binary
    obtain ⟨otherBinary, otherLength, sum⟩ := (perm_firstDigits within).mp digitsPerm
    exact ⟨otherBinary, otherLength, sum, same⟩
  have encoded : ∀ other : Text, other.Perm (bitText (firstDigits bits size)) →
      bitText (firstDigits bits size) ≤ other → encode other = .ok ((Nat.ofDigits 2 (textDigits other) : Nat) : Int) := by
    intro other perm _
    obtain ⟨otherBinary, otherLength, _, same⟩ := shape other perm
    have nonempty : textDigits other ≠ [] := List.ne_nil_of_length_pos (by omega)
    have converted := encode_bitText otherBinary nonempty (by omega)
    rwa [← same] at converted
  have enough : later (bitText (firstDigits bits size)) < size.factorial + 1 := by
    have bound := later_le (bitText (firstDigits bits size))
    rw [bitText, List.length_map, List.length_reverse, length] at bound
    rw [bitText]
    omega
  obtain ⟨visited, run, nodup, members⟩ := combinationLoop_visits [] encoded enough
  rw [List.nil_append] at run
  refine ⟨_, (combinations_eq within (by omega)).trans run, ?_, ?_⟩
  · refine (List.nodup_map_iff_inj_on nodup).mpr ?_
    intro one oneMember two twoMember same
    obtain ⟨oneBinary, oneLength, _, oneText⟩ := shape one ((members one).mp oneMember).1
    obtain ⟨twoBinary, twoLength, _, twoText⟩ := shape two ((members two).mp twoMember).1
    rw [oneText, twoText, Nat.ofDigits_inj_of_len_eq (by decide) (oneLength.trans twoLength.symm) oneBinary twoBinary
      (by exact_mod_cast same)]
  · intro mask
    rw [List.mem_map]
    constructor
    · rintro ⟨str, member, rfl⟩
      obtain ⟨strBinary, strLength, sum, _⟩ := shape str ((members str).mp member).1
      have below := Nat.ofDigits_lt_base_pow_length (by decide) strBinary
      rw [strLength] at below
      have ones := Nat.sum_digits_ofDigits_eq_sum (by decide : 1 < 2) (⟨rfl, strBinary⟩ :
        textDigits str ∈ {L : List Nat | L.length = (textDigits str).length ∧ ∀ x ∈ L, x < 2})
      refine ⟨by omega, by exact_mod_cast below, ?_⟩
      rw [Int.toNat_natCast, (Binary.counts fun digit => Nat.digits_lt_base (by decide)).1, ones, sum]
    · rintro ⟨nonneg, below, ones⟩
      obtain ⟨number, rfl⟩ := Int.eq_ofNat_of_zero_le nonneg
      have small : number < 2 ^ size := by exact_mod_cast below
      rw [Int.toNat_natCast] at ones
      have wholeBinary : Binary (Nat.digitsAppend 2 size number) := by
        intro digit member
        exact Nat.lt_of_mem_digitsAppend (by decide) size digit member
      have value : Nat.ofDigits 2 (Nat.digitsAppend 2 size number) = number := by
        rw [Nat.digitsAppend, Nat.ofDigits_append_replicate_zero, Nat.ofDigits_digits]
      have sum : (Nat.digitsAppend 2 size number).sum = bits := by
        rw [← wholeBinary.counts.1, Nat.digitsAppend, List.count_append, ones, List.count_replicate]
        rfl
      have perm := bitText_perm ((perm_firstDigits within).mpr ⟨wholeBinary, Nat.length_digitsAppend (by decide) size small, sum⟩)
      refine ⟨_, (members _).mpr ⟨perm, (sorted_firstDigits bits size).least perm⟩, ?_⟩
      rw [textDigits_bitText wholeBinary, value]

/-- With more than ten digits, the string with all ones in front is not converted. -/
theorem combinations_long {masks : List Int} (positive : 1 ≤ bits) (within : bits ≤ size) (small : size < 2147483648)
    (long : 11 ≤ size) : combinations bits size ≠ .ok masks := by
  intro returned
  rw [combinations_eq within small] at returned
  obtain ⟨fewer, rfl⟩ := Nat.exists_eq_add_of_le' positive
  have perm : (List.replicate (size - (fewer + 1)) 0 ++ List.replicate fewer 1 ++ [1]).Perm (firstDigits (fewer + 1) size) := by
    rw [firstDigits, List.append_assoc, ← List.replicate_succ']
    exact List.perm_append_comm
  have binary : Binary (List.replicate (size - (fewer + 1)) 0 ++ List.replicate fewer 1) := by
    intro digit member
    exact ((perm_firstDigits within).mp perm).1 digit (List.mem_append_left [1] member)
  obtain ⟨value, encoded⟩ := combinationLoop_converts returned (bitText_perm perm)
    ((sorted_firstDigits _ _).least (bitText_perm perm))
  rw [encode_long binary (by rw [List.length_append, List.length_replicate, List.length_replicate]; omega)] at encoded
  cases encoded

/-- `combinations` returns each mask once exactly if the strings have at most ten digits: the string of all
others is a decimal number that does not fit into `int`. -/
theorem combinations_iff (bits size : Nat) (positive : 1 ≤ bits) (within : bits ≤ size) (short : size < 31) :
    (∃ masks, combinations bits size = .ok masks ∧ EachOnce bits size masks) ↔ size ≤ 10 := by
  constructor
  · rintro ⟨masks, returned, _⟩
    by_contra long
    exact combinations_long positive within (by omega) (by omega) returned
  · exact combinations_short positive within

theorem combinations_iff_three :
    (∃ masks, combinations (2 : Nat) (3 : Nat) = .ok masks ∧ EachOnce 2 3 masks) ↔ 3 ≤ 10 :=
  combinations_iff 2 3 (by decide) (by decide) (by decide)

/-- One bit in eleven. -/
theorem combinations_eleven :
    ¬ ∀ bits size : Nat, 1 ≤ bits → bits ≤ size → size < 31 →
      ∃ masks, combinations bits size = .ok masks ∧ EachOnce bits size masks := by
  intro always
  obtain ⟨masks, returned, _⟩ := always 1 11 (by decide) (by decide) (by decide)
  exact combinations_long (by decide) (by decide) (by decide) (by decide) returned

end Dsac.Graph.Tsp
