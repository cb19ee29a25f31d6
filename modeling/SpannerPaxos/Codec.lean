import Mathlib.Data.Nat.Log
import Mathlib.Algebra.Ring.Nat

/-! # Codecs

A codec encodes a value and decodes it again, which may fail and may lose part of the
value: what it keeps is `norm`.  Fields, lists and optional fields compose.  The second
part is a text codec for numbers: hexadecimal digits in hyphenated groups.
-/

/-- Decoding what was encoded gives the value back, up to `norm`. -/
def RoundTrips {α β : Type} (encode : α → β) (decode : β → Option α) (norm : α → α) (a : α) :
    Prop :=
  decode (encode a) = some (norm a)

/-- Decode a value that may be absent. -/
def decodeOption {α β : Type} (decode : β → Option α) : Option β → Option (Option α)
  | none => some none
  | some b => (decode b).map some

/-- Decode a sequence; one value that cannot be decoded spoils it. -/
def decodeList {α β : Type} (decode : β → Option α) : List β → Option (List α)
  | [] => some []
  | b :: bs => (decode b).bind fun a => (decodeList decode bs).map fun as => a :: as

namespace RoundTrips
variable {α β : Type} {encode : α → β} {decode : β → Option α} {norm : α → α}

theorem option {o : Option α} (h : ∀ a, o = some a → RoundTrips encode decode norm a) :
    RoundTrips (Option.map encode) (decodeOption decode) (Option.map norm) o := by
  cases o with
  | none => rfl
  | some a =>
    show (decode (encode a)).map some = some (some (norm a))
    rw [h a rfl]
    rfl

theorem list {as : List α} (h : ∀ a ∈ as, RoundTrips encode decode norm a) :
    RoundTrips (List.map encode) (decodeList decode) (List.map norm) as := by
  induction as with
  | nil => rfl
  | cons a as ih =>
    obtain ⟨ha, has⟩ := List.forall_mem_cons.mp h
    have htail : decodeList decode (as.map encode) = some (as.map norm) := ih has
    show (decode (encode a)).bind _ = _
    rw [ha, Option.bind_some, htail]
    rfl

/-- Where nothing is lost on the way, the value itself comes back. -/
theorem option_id {o : Option α} (h : ∀ a, RoundTrips encode decode id a) :
    decodeOption decode (o.map encode) = some o := by
  have hoption := option (o := o) fun a _ => h a
  rwa [RoundTrips, Option.map_id, id] at hoption

end RoundTrips

section
variable {α β : Type} {decode : β → Option α} {P : α → Prop}

/-- What decodes from a value that may be absent has what all decoded values have. -/
theorem forall_of_decodeOption (hdecode : ∀ b a, decode b = some a → P a) {o : Option β}
    {o' : Option α} (h : decodeOption decode o = some o') : ∀ a, o' = some a → P a := by
  intro a ha
  cases o with
  | none =>
    cases Option.some.inj h
    cases ha
  | some b =>
    obtain ⟨a', ha', rfl⟩ := Option.map_eq_some_iff.mp h
    cases Option.some.inj ha
    exact hdecode b _ ha'

theorem forall_of_decodeList (hdecode : ∀ b a, decode b = some a → P a) {bs : List β}
    {as : List α} (h : decodeList decode bs = some as) : ∀ a ∈ as, P a := by
  induction bs generalizing as with
  | nil =>
    cases Option.some.inj h
    exact List.forall_mem_nil _
  | cons b bs ih =>
    obtain ⟨a, ha, hrest⟩ := Option.bind_eq_some_iff.mp h
    obtain ⟨as', has', rfl⟩ := Option.map_eq_some_iff.mp hrest
    exact List.forall_mem_cons.mpr ⟨hdecode b a ha, ih has'⟩

end

/-! ## Numbers as text -/

namespace HexText

/-- The value of a hexadecimal digit. -/
def hexVal (c : Char) : Nat := if c.isDigit then c.toNat - '0'.toNat else c.toNat - 'a'.toNat + 10

theorem hexVal_digitChar : ∀ d < 16, hexVal (Nat.digitChar d) = d := by decide

theorem digitChar_ne_hyphen : ∀ d < 16, Nat.digitChar d ≠ '-' := by decide

/-- The last `width` digits of a number. -/
def digits : Nat → Nat → List Char
  | 0, _ => []
  | width + 1, n => digits width (n / 16) ++ [Nat.digitChar (n % 16)]

/-- The number that the digits spell. -/
def read (cs : List Char) : Nat := cs.foldl (fun n c => 16 * n + hexVal c) 0

theorem read_concat (cs : List Char) (c : Char) : read (cs ++ [c]) = 16 * read cs + hexVal c := by
  rw [read, List.foldl_append]
  rfl

theorem read_digits {width n : Nat} (h : n < 16 ^ width) : read (digits width n) = n := by
  induction width generalizing n with
  | zero =>
    rw [Nat.pow_zero, Nat.lt_one_iff] at h
    exact h.symm
  | succ width ih =>
    rw [Nat.pow_succ] at h
    rw [digits, read_concat, ih (Nat.div_lt_of_lt_mul (by omega)),
      hexVal_digitChar _ (Nat.mod_lt n (by decide)), Nat.div_add_mod]

theorem hyphen_not_mem_digits (width n : Nat) : ∀ c ∈ digits width n, c ≠ '-' := by
  induction width generalizing n with
  | zero => exact List.forall_mem_nil _
  | succ width ih =>
    rw [digits, List.forall_mem_append]
    refine ⟨ih _, ?_⟩
    rw [List.forall_mem_singleton]
    exact digitChar_ne_hyphen _ (Nat.mod_lt n (by decide))

/-- Hyphens in front of groups of the given lengths, after a first group of the rest. -/
def hyphenate (cs : List Char) : List Nat → List Char
  | [] => cs
  | n :: ns =>
    let rest := (n :: ns).sum
    cs.take (cs.length - rest) ++ '-' :: hyphenate (cs.drop (cs.length - rest)) ns

/-- Hyphens are only there for the reader. -/
theorem filter_hyphenate {cs : List Char} (h : ∀ c ∈ cs, c ≠ '-') (ns : List Nat) :
    (hyphenate cs ns).filter (fun c => c ≠ '-') = cs := by
  induction ns generalizing cs with
  | nil =>
    refine List.filter_eq_self.mpr ?_
    intro c hc
    exact decide_eq_true (h c hc)
  | cons n ns ih =>
    have htake : ∀ m, (cs.take m).filter (fun c => c ≠ '-') = cs.take m := fun m =>
      List.filter_eq_self.mpr fun c hc => decide_eq_true (h c (List.mem_of_mem_take hc))
    rw [hyphenate, List.filter_append, htake, List.filter_cons_of_neg (by decide),
      ih fun c hc => h c (List.mem_of_mem_drop hc), List.take_append_drop]

/-- Groups of 8, 4, 4, 4 and 12 digits; a number of more than 32 digits has a longer first
group. -/
def print (n : Nat) : String :=
  String.ofList (hyphenate (digits (max 32 (Nat.log 16 n + 1)) n) [4, 4, 4, 12])

/-- Digits, hyphens aside, and enough of them. -/
def parse (s : String) : Option Nat :=
  let cs := s.toList.filter fun c => c ≠ '-'
  if 32 ≤ cs.length ∧ cs.all fun c => decide (c ∈ "0123456789abcdef".toList) then some (read cs)
  else none

theorem length_digits (width n : Nat) : (digits width n).length = width := by
  induction width generalizing n with
  | zero => rfl
  | succ width ih => rw [digits, List.length_append, ih, List.length_singleton]

theorem digitChar_mem : ∀ d < 16, Nat.digitChar d ∈ "0123456789abcdef".toList := by decide

theorem mem_of_mem_digits (width n : Nat) :
    ∀ c ∈ digits width n, c ∈ "0123456789abcdef".toList := by
  induction width generalizing n with
  | zero => exact List.forall_mem_nil _
  | succ width ih =>
    rw [digits, List.forall_mem_append]
    refine ⟨ih _, ?_⟩
    rw [List.forall_mem_singleton]
    exact digitChar_mem _ (Nat.mod_lt n (by decide))

/-- **What is printed is read back.** -/
theorem parse_print (n : Nat) : parse (print n) = some n := by
  have hwidth : n < 16 ^ max 32 (Nat.log 16 n + 1) :=
    lt_of_lt_of_le (Nat.lt_pow_succ_log_self (by decide) n)
      (Nat.pow_le_pow_right (by decide) (le_max_right _ _))
  rw [parse, print, String.toList_ofList, filter_hyphenate (hyphen_not_mem_digits _ _),
    if_pos, read_digits hwidth]
  constructor
  · rw [length_digits]
    exact le_max_left _ _
  · exact List.all_eq_true.mpr fun c hc => decide_eq_true (mem_of_mem_digits _ _ c hc)

example : print 258 = "00000000-0000-0000-0000-000000000102" := by decide

end HexText
