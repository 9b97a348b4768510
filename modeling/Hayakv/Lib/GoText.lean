import Mathlib.Tactic.Ring

/-!
# Go strings and integers as text

Go strings and byte slices are lists of bytes. `itoa` and `parseInt` are
`strconv.Itoa` and `strconv.ParseInt(s, 10, 64)`: an optional sign, one or more
digits, and a result that fits 64 bits. They are inverse on every Go `int`
(`parseInt_itoa`).
-/

namespace Hayakv

open List

/-- A Go string, as its bytes. -/
abbrev Bytes := List UInt8

instance Bytes.lawfulBEq : LawfulBEq Bytes := inferInstance

/-- A Go string with its length, which is a Go `int`. -/
abbrev GoString := { s : Bytes // s.length < 2 ^ 63 }

/-- A Go string literal of ASCII characters. -/
def str (s : String) : Bytes := s.toList.map fun c => UInt8.ofNat c.toNat

instance : Coe String Bytes := ⟨str⟩

/-- `strings.ToLower` on a string of ASCII characters; other bytes stay. -/
def toLower (s : Bytes) : Bytes := s.map fun b => if 65 ≤ b ∧ b ≤ 90 then b + 32 else b

/-- `strings.ToUpper`, likewise. -/
def toUpper (s : Bytes) : Bytes := s.map fun b => if 97 ≤ b ∧ b ≤ 122 then b - 32 else b

/-- The ASCII digit of `n % 10`. -/
def digit (n : Nat) : UInt8 := UInt8.ofNat (48 + n % 10)

/-- The digits of `n` in front of `acc`; `fuel > n` is enough. -/
def digits : Nat → Nat → Bytes → Bytes
  | 0, _, acc => acc
  | fuel + 1, n, acc => if n < 10 then digit n :: acc else digits fuel (n / 10) (digit n :: acc)

def itoa (n : Int) : Bytes :=
  if 0 ≤ n then digits (n.toNat + 1) n.toNat [] else 45 :: digits (n.natAbs + 1) n.natAbs []

def isDigit (b : UInt8) : Bool := 48 ≤ b && b ≤ 57

/-- The value of a list of digits read after the value `acc`. -/
def digitsValue (acc : Nat) (s : Bytes) : Nat := s.foldl (fun v b => 10 * v + (b.toNat - 48)) acc

/-- A nonempty string of digits. -/
def parseDigits (s : Bytes) : Option Nat := if s ≠ [] ∧ s.all isDigit then some (digitsValue 0 s) else none

/-- `strconv.ParseInt(s, 10, 64)`; `none` for a syntax or a range error. -/
def parseInt (s : Bytes) : Option Int :=
  match s with
  | 45 :: s => (parseDigits s).bind fun n => if n ≤ 2 ^ 63 then some (-(n : Int)) else none
  | 43 :: s => (parseDigits s).bind fun n => if n < 2 ^ 63 then some (n : Int) else none
  | s => (parseDigits s).bind fun n => if n < 2 ^ 63 then some (n : Int) else none

theorem toNat_digit (n : Nat) : (digit n).toNat = 48 + n % 10 := by
  rw [digit, UInt8.toNat_ofNat']
  omega

theorem isDigit_digit (n : Nat) : isDigit (digit n) = true := by
  have h := toNat_digit n
  simp only [isDigit, Bool.and_eq_true, decide_eq_true_eq, UInt8.le_iff_toNat_le, h]
  constructor
  · change 48 ≤ _
    omega
  · change _ ≤ 57
    omega

theorem digits_spec {fuel n : Nat} (h : n < fuel) (acc : Bytes) :
    ∃ d ds, digits fuel n acc = d :: ds ++ acc ∧ (d :: ds).all isDigit ∧
      ∀ v, digitsValue v (d :: ds) = 10 ^ (ds.length + 1) * v + n := by
  induction fuel generalizing n acc with
  | zero => omega
  | succ fuel ih =>
    rw [digits]
    split
    · refine ⟨digit n, [], rfl, by simp [isDigit_digit], fun v => ?_⟩
      simp only [digitsValue, foldl_cons, foldl_nil, toNat_digit, length_nil]
      omega
    obtain ⟨d, ds, heq, hall, hval⟩ := ih (show n / 10 < fuel by omega) (digit n :: acc)
    refine ⟨d, ds ++ [digit n], by rw [heq]; simp, ?_, fun v => ?_⟩
    · simpa [isDigit_digit] using hall
    · have hv := hval v
      rw [digitsValue] at hv ⊢
      rw [← cons_append, foldl_append, hv, foldl_cons, foldl_nil, toNat_digit,
        length_append, length_singleton, pow_succ 10 (ds.length + 1)]
      generalize 10 ^ (ds.length + 1) = p
      have hp : p * 10 * v = 10 * (p * v) := by ring
      omega

theorem parseDigits_digits {fuel n : Nat} (h : n < fuel) : parseDigits (digits fuel n []) = some n := by
  obtain ⟨d, ds, heq, hall, hval⟩ := digits_spec h []
  rw [heq, append_nil, parseDigits, if_pos ⟨by simp, hall⟩, hval]
  simp

theorem isDigit_of_mem_digits {fuel n : Nat} (h : n < fuel) {b : UInt8} (hb : b ∈ digits fuel n []) : isDigit b := by
  obtain ⟨d, ds, heq, hall, -⟩ := digits_spec h []
  rw [heq, append_nil] at hb
  exact all_eq_true.1 hall b hb

variable {n : Int}

theorem mem_itoa {b : UInt8} (hb : b ∈ itoa n) : b = 45 ∨ isDigit b := by
  rw [itoa] at hb
  split at hb
  · exact .inr (isDigit_of_mem_digits (Nat.lt_succ_self _) hb)
  · rcases mem_cons.1 hb with rfl | hb
    · exact .inl rfl
    · exact .inr (isDigit_of_mem_digits (Nat.lt_succ_self _) hb)

theorem itoa_ne_nil (n : Int) : itoa n ≠ [] := by
  rw [itoa]
  split
  · obtain ⟨d, ds, heq, -, -⟩ := digits_spec (Nat.lt_succ_self n.toNat) []
    rw [heq]
    simp
  · simp

theorem length_digits_le (fuel n : Nat) (acc : Bytes) : (digits fuel n acc).length ≤ acc.length + n / 10 + 1 := by
  induction fuel generalizing n acc with
  | zero => simp [digits]; omega
  | succ fuel ih =>
    rw [digits]
    split
    · simp
    · have := ih (n / 10) (digit n :: acc)
      rw [length_cons] at this
      omega

theorem length_itoa_lt (hlo : -2 ^ 63 ≤ n) (hhi : n < 2 ^ 63) : (itoa n).length < 2 ^ 63 := by
  rw [itoa]
  split
  · have := length_digits_le (n.toNat + 1) n.toNat []
    simp only [length_nil] at this
    omega
  · have := length_digits_le (n.natAbs + 1) n.natAbs []
    simp only [length_nil] at this
    rw [length_cons]
    omega

theorem parseInt_range {s : Bytes} (h : parseInt s = some n) : -2 ^ 63 ≤ n ∧ n < 2 ^ 63 := by
  unfold parseInt at h
  split at h <;> simp only [Option.bind_eq_some_iff] at h <;> obtain ⟨m, -, hm⟩ := h <;>
    split at hm <;> simp only [Option.some.injEq, reduceCtorEq] at hm <;> omega

theorem parseInt_itoa (hlo : -2 ^ 63 ≤ n) (hhi : n < 2 ^ 63) : parseInt (itoa n) = some n := by
  rw [itoa]
  split
  · rename_i h0
    have hlt := Nat.lt_succ_self n.toNat
    have hparse := parseDigits_digits hlt
    obtain ⟨d, ds, heq, hall, -⟩ := digits_spec hlt []
    rw [heq, append_nil] at hparse ⊢
    have hd : isDigit d := (all_eq_true.1 hall) d mem_cons_self
    have h45 : d ≠ 45 := fun hc => by rw [hc] at hd; exact absurd hd (by decide)
    have h43 : d ≠ 43 := fun hc => by rw [hc] at hd; exact absurd hd (by decide)
    rw [parseInt]
    · rw [hparse, Option.bind_some, if_pos (by omega)]
      congr
      omega
    · exact fun s hs => h45 (cons.inj hs).1
    · exact fun s hs => h43 (cons.inj hs).1
  · rw [parseInt, parseDigits_digits (Nat.lt_succ_self _), Option.bind_some, if_pos (by omega)]
    congr
    omega

end Hayakv
