import Hayakv.Frame.Server
import Hayakv.Object.Set

/-!
# Integers as strings

`isInt`, `parseInt64` and `formatInt64` of `internal/object/listpack.go`, and string objects. A text that
`isInt` accepts is kept as an integer. The objects of the integers below 10000 are shared, and BITFIELD
writes into them; from then on `MakeStringObject` answers another text.
-/

namespace Hayakv.Object

open Engine List Hayakv.Frame Cmd

/-! ## Digits -/

/-- The first loop of `formatInt64`. -/
def countDigits : Nat → Nat → Nat
  | 0, _ => 0
  | fuel + 1, tmp => if tmp > 0 then countDigits fuel (tmp / 10) + 1 else 0

/-- Its second loop, which fills the buffer from the end. -/
def fillDigits : Nat → Nat → Bytes
  | 0, _ => []
  | i + 1, v => fillDigits i (v / 10) ++ [digit v]

/-- The two loops on `v`. -/
def decimal (v : Nat) : Bytes := fillDigits (countDigits v v) v

/-- `formatInt64` with its loops. The opposite of the least integer is itself, and has no digits. -/
def formatLoops (v : Int) : Bytes :=
  if v = 0 then "0" else if v < 0 then 45 :: decimal (wrap64 (-v)).toNat else decimal v.toNat

theorem fillDigits_count {n fuel k : Nat} (hn : 0 < n) (hfuel : n ≤ fuel) (hk : n < k) (acc : Bytes) :
    fillDigits (countDigits fuel n) n ++ acc = digits k n acc := by
  induction k generalizing n fuel acc with
  | zero => omega
  | succ k ih =>
    obtain ⟨fuel, rfl⟩ : ∃ f, fuel = f + 1 := ⟨fuel - 1, by omega⟩
    rw [countDigits, if_pos hn, fillDigits, digits, append_assoc, singleton_append]
    split
    · have hzero : n / 10 = 0 := by omega
      have hcount : countDigits fuel 0 = 0 := by cases fuel <;> rfl
      rw [hzero, hcount, fillDigits, nil_append]
    · exact ih (by omega) (by omega) (by omega) _

theorem formatLoops_eq {v : Int} (hlo : -2 ^ 63 ≤ v) (hhi : v < 2 ^ 63) : formatLoops v = formatInt64 v := by
  have hdecimal : ∀ n : Nat, 0 < n → decimal n = digits (n + 1) n [] := fun n hn => by
    rw [decimal, ← fillDigits_count hn le_rfl n.lt_succ_self, append_nil]
  by_cases hzero : v = 0
  · subst hzero
    rfl
  by_cases hmin : v = -2 ^ 63
  · subst hmin
    rfl
  rw [formatLoops, formatInt64, if_neg hzero, if_neg hmin, itoa]
  by_cases h : 0 ≤ v
  · rw [if_neg h.not_gt, if_pos h, hdecimal _ (by omega)]
  · have hneg : (wrap64 (-v)).toNat = v.natAbs := by
      unfold wrap64
      omega
    rw [if_pos (not_le.1 h), if_neg h, hneg, hdecimal _ (by omega)]

theorem le_digitsValue (v : Nat) (s : Bytes) : v ≤ digitsValue v s := by
  induction s generalizing v with
  | nil => exact le_rfl
  | cons b s ih => exact le_trans (by dsimp only; omega) (ih _)

theorem parseInt64Digits_eq {s : Bytes} (hs : s.all isDigit) {v : Nat} (hv : digitsValue v s < 2 ^ 63) :
    parseInt64Digits v s = some (digitsValue v s) := by
  induction s generalizing v with
  | nil => rfl
  | cons c s ih =>
    simp only [all_cons, Bool.and_eq_true, isDigit, decide_eq_true_eq] at hs
    have hle := le_digitsValue (10 * v + (c.toNat - 48)) s
    change digitsValue (10 * v + (c.toNat - 48)) s < 2 ^ 63 at hv
    rw [parseInt64Digits, if_neg (by simp [hs.1.1, hs.1.2]), if_neg (by omega), Nat.mul_comm v]
    exact ih hs.2 hv

theorem parseInt64_itoa {v : Int} (hlo : -2 ^ 63 < v) (hhi : v < 2 ^ 63) : parseInt64 (itoa v) = v := by
  have hdigits : ∀ n : Nat, n < 2 ^ 63 → ∃ d ds, digits (n + 1) n [] = d :: ds ∧ isDigit d ∧
      parseInt64Digits 0 (d :: ds) = some n := fun n hn => by
    obtain ⟨d, ds, heq, hall, hval⟩ := digits_spec n.lt_succ_self []
    have hv : digitsValue 0 (d :: ds) = n := by simpa using hval 0
    refine ⟨d, ds, by simpa using heq, (all_eq_true.1 hall) d mem_cons_self, ?_⟩
    rw [parseInt64Digits_eq hall (hv ▸ hn), hv]
  rw [itoa]
  split
  · obtain ⟨d, ds, heq, hd, hparse⟩ := hdigits v.toNat (by omega)
    rw [heq, parseInt64, hparse]
    · simpa using ‹0 ≤ v›
    · exact fun h => absurd h (by simp)
    · rintro s ⟨⟩
      exact absurd hd (by decide)
    · rintro s ⟨⟩
      exact absurd hd (by decide)
  · obtain ⟨d, ds, heq, -, hparse⟩ := hdigits v.natAbs (by omega)
    rw [heq, parseInt64, hparse, Option.getD_some]
    omega

theorem isInt_iff {b : Bytes} {v : Int} : isInt b = some v ↔ -2 ^ 63 < v ∧ v < 2 ^ 63 ∧ b = itoa v := by
  constructor
  · intro h
    obtain ⟨hparse, hfmt⟩ := isInt_eq_some h
    have hrange := parseInt64_range b
    rw [hparse] at hrange
    exact ⟨hrange.1, hrange.2, by rw [← hfmt, ← hparse, formatInt64_parseInt64]⟩
  · rintro ⟨hlo, hhi, rfl⟩
    rw [isInt, parseInt64_itoa hlo hhi, if_pos ⟨itoa_ne_nil v, rfl⟩]

/-! ## String objects -/

def getStringBytes (h : Heap) : Cell → Option Bytes
  | .str _ .int (.int v) => some (formatLoops v)
  | .str _ .embstr (.bytes s) | .str _ .raw (.bytes s) => some (h.slice s)
  | _ => none

/-- `GetStringBytes` of what `MakeStringObject(b)` returns. -/
def madeBytes (s : State) (env : Env) (b : Bytes) : Option Bytes :=
  let (r, s') := s.makeStringObject env (some b)
  (s'.heap.cell r).bind (getStringBytes s'.heap)

theorem madeBytes_eq (s : State) (env : Env) (b : Bytes) : madeBytes s env b = some b ↔
    ∀ n : Nat, n < 10000 → b = itoa n → (s.heap.cell (.shared n)).bind (getStringBytes s.heap) = some b := by
  cases hb : isInt b with
  | none =>
    refine iff_of_true ?_ fun n hn heq => ?_
    · simp only [madeBytes, State.makeStringObject, hb, Heap.cell_newCell_self, Option.bind_some]
      split <;> simp [getStringBytes, Heap.slice, Heap.newArray, Heap.newCell]
    · simp [isInt_iff.2 ⟨by omega, by omega, heq⟩] at hb
  | some v =>
    obtain ⟨hlo, hhi, rfl⟩ := isInt_iff.1 hb
    have hshared : ∀ n : Nat, n < 10000 → itoa v = itoa n → v = n := fun n hn heq =>
      Option.some.inj (hb.symm.trans (isInt_iff.2 ⟨by omega, by omega, heq⟩))
    by_cases hv : 0 ≤ v ∧ v < 10000
    · simp only [madeBytes, State.makeStringObject, hb, if_pos hv]
      refine ⟨fun h n hn heq => ?_, fun h => h v.toNat (by omega) (by rw [Int.toNat_of_nonneg hv.1])⟩
      obtain rfl := hshared n hn heq
      exact h
    · refine iff_of_true ?_ fun n hn heq => absurd (hshared n hn heq) (by omega)
      simp only [madeBytes, State.makeStringObject, hb, if_neg hv, Heap.cell_newCell_self, Option.bind_some,
        getStringBytes]
      rw [formatLoops_eq hlo.le hhi, formatInt64, if_neg hlo.ne']

/-- Strings are kept as they are unless a shared integer has been changed. -/
theorem integer_encoding (s : State) (env : Env) : ((∀ b, madeBytes s env b = some b) ∧
      (∀ b v, isInt b = some v ↔ -2 ^ 63 < v ∧ v < 2 ^ 63 ∧ b = itoa v) ∧
      ∀ v, -2 ^ 63 < v → v < 2 ^ 63 → formatLoops v = itoa v ∧ parseInt64 (itoa v) = v) ↔
    ∀ n : Nat, n < 10000 → (s.heap.cell (.shared n)).bind (getStringBytes s.heap) = some (itoa n) := by
  constructor
  · rintro ⟨h, -⟩ n hn
    exact (madeBytes_eq s env _).1 (h _) n hn rfl
  · refine fun h => ⟨fun b => (madeBytes_eq s env b).2 fun n hn heq => heq ▸ h n hn, fun b v => isInt_iff,
      fun v hlo hhi => ⟨?_, parseInt64_itoa hlo hhi⟩⟩
    rw [formatLoops_eq hlo.le hhi, formatInt64, if_neg hlo.ne']

/-- `SET a 5` and `BITFIELD a SET u8 0 65` write into the shared object of 5. -/
theorem shared_integer_changed : ¬∀ (databases : Nat) (σ : Server) (i : Nat) (s : State) (env : Env) (b : Bytes),
    Server.Reachable databases σ → σ.selectDB i = some s → madeBytes s env b = some b := by
  intro h
  have := h 2 _ 0 _ (.plain 0) "5" (reachable_runRequests 0
    [.command 0 ["SET", "a", "5"], .command 0 ["BITFIELD", "a", "SET", "u8", "0", "65"]]) rfl
  exact absurd this (by decide)

end Hayakv.Object
