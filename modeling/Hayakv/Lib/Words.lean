import Hayakv.Lib.GoText
import Mathlib.Data.List.DropRight

/-!
# Words and lines of a Go string

`strings.Fields`, `strings.TrimSpace`, the lines of a `bufio.Scanner`,
`strings.IndexByte` and `strings.LastIndexByte` as cuts, and the values that
`strconv.Atoi` and `strconv.ParseUint` return beside their errors. White space is
that of ASCII.

Words that are put together with blanks are read back by `fields`
(`fields_unwords`), lines by `lines` (`lines_unlines`).
-/

namespace Hayakv

open List

/-- `unicode.IsSpace` on ASCII. -/
def isSpace (b : UInt8) : Bool := b == 32 || (9 ≤ b && b ≤ 13)

def fields (s : Bytes) : List Bytes := (s.splitOnP isSpace).filter (· ≠ [])

def trimSpace (s : Bytes) : Bytes := (s.dropWhile isSpace).rdropWhile isSpace

/-- A line without the carriage return at its end. -/
def dropCR (s : Bytes) : Bytes := if s.getLast? = some 13 then s.dropLast else s

/-- The lines that a `bufio.Scanner` gives one after another. -/
def lines (s : Bytes) : List Bytes :=
  let parts := s.splitOn 10
  (if parts.getLast? = some [] then parts.dropLast else parts).map dropCR

/-- What stands before and after the first `b`. -/
def cut (b : UInt8) : Bytes → Option (Bytes × Bytes)
  | [] => none
  | c :: s => if c = b then some ([], s) else (cut b s).map fun (x, y) => (c :: x, y)

/-- What stands before and after the last `b`. -/
def cutLast (b : UInt8) (s : Bytes) : Option (Bytes × Bytes) :=
  (cut b s.reverse).map fun (x, y) => (y.reverse, x.reverse)

/-- The value of `strconv.Atoi`, its error dropped: 0 for what is no number, and the bound of the range
for a number beyond it. -/
def atoi (s : Bytes) : Int :=
  match s with
  | 45 :: s => ((parseDigits s).map fun n : Nat => max (-(n : Int)) (-2 ^ 63)).getD 0
  | 43 :: s => ((parseDigits s).map fun n : Nat => min (n : Int) (2 ^ 63 - 1)).getD 0
  | s => ((parseDigits s).map fun n : Nat => min (n : Int) (2 ^ 63 - 1)).getD 0

/-- The value of `strconv.ParseUint(s, 10, 64)`, its error dropped. -/
def atou (s : Bytes) : UInt64 := UInt64.ofNat (min ((parseDigits s).getD 0) (2 ^ 64 - 1))

/-- Words with a blank between them. -/
def unwords (ws : List Bytes) : Bytes := [32].intercalate ws

def unlines (ls : List Bytes) : Bytes := ls.flatMap (· ++ [10])

/-- A nonempty string without white space. -/
structure Word (w : Bytes) : Prop where
  ne_nil : w ≠ []
  not_space : ∀ b ∈ w, isSpace b = false

instance (w : Bytes) : Decidable (Word w) :=
  decidable_of_iff (w.isEmpty = false ∧ w.all (fun b => !isSpace b) = true)
    ⟨fun h => ⟨by simpa using h.1, by simpa using h.2⟩, fun h => ⟨by simpa using h.1, by simpa using h.2⟩⟩

section words

variable {w rest : Bytes} {ws : List Bytes}

theorem fields_append (hw : Word w) : fields (w ++ 32 :: rest) = w :: fields rest := by
  rw [fields, splitOnP_append_cons_of_forall_mem hw.not_space 32 rfl, filter_cons_of_pos (by simp [hw.ne_nil])]
  rfl

theorem fields_word (hw : Word w) : fields w = [w] := by
  rw [fields, splitOnP_eq_singleton hw.not_space]
  simp [hw.ne_nil]

@[simp] theorem unwords_singleton (w : Bytes) : unwords [w] = w := intercalate_singleton

@[simp] theorem unwords_cons (w w' : Bytes) (ws : List Bytes) :
    unwords (w :: w' :: ws) = w ++ 32 :: unwords (w' :: ws) := by
  rfl

theorem fields_unwords : ∀ {ws : List Bytes}, (∀ w ∈ ws, Word w) → fields (unwords ws) = ws
  | [], _ => rfl
  | [w], hws => by
    rw [unwords_singleton]
    exact fields_word (hws w mem_cons_self)
  | w :: w' :: ws, hws => by
    rw [unwords_cons, fields_append (hws w mem_cons_self), fields_unwords fun v hv => hws v (mem_cons_of_mem w hv)]

theorem mem_intercalate {b c : UInt8} : ∀ {ws : List Bytes}, b ∈ [c].intercalate ws → b = c ∨ ∃ w ∈ ws, b ∈ w
  | [], hb => absurd hb not_mem_nil
  | [w], hb => .inr ⟨w, mem_cons_self, by rwa [intercalate_singleton] at hb⟩
  | w :: w' :: ws, hb => by
    rw [intercalate_cons_cons, append_assoc, mem_append, singleton_append, mem_cons] at hb
    rcases hb with hb | hb | hb
    · exact .inr ⟨w, mem_cons_self, hb⟩
    · exact .inl hb
    · rcases mem_intercalate hb with hb | ⟨v, hv, hb⟩
      · exact .inl hb
      · exact .inr ⟨v, mem_cons_of_mem w hv, hb⟩

theorem not_mem_unwords {b : UInt8} (hws : ∀ w ∈ ws, Word w) (hspace : isSpace b = true) (hb : b ≠ 32) :
    b ∉ unwords ws := by
  intro hmem
  rcases mem_intercalate hmem with h | ⟨w, hw, hbw⟩
  · exact hb h
  · simp [(hws w hw).not_space b hbw] at hspace

theorem trimSpace_of_ends {c d : UInt8} (mid : Bytes) (hc : isSpace c = false) (hd : isSpace d = false) :
    trimSpace (c :: (mid ++ [d])) = c :: (mid ++ [d]) := by
  rw [trimSpace, dropWhile_cons_of_neg (by simp [hc]), ← cons_append, rdropWhile_concat_neg _ _ _ (by simp [hd])]

/-- A text of at least two words neither begins nor ends with white space. -/
theorem trimSpace_unwords {w w' : Bytes} (hws : ∀ v ∈ w :: w' :: ws, Word v) :
    trimSpace (unwords (w :: w' :: ws)) = unwords (w :: w' :: ws) := by
  have hlast : ∀ (ws : List Bytes) (w : Bytes), (∀ v ∈ w :: ws, Word v) →
      ∃ mid d, unwords (w :: ws) = mid ++ [d] ∧ isSpace d = false := by
    intro ws
    induction ws with
    | nil =>
      intro w hw
      have hw := hw w mem_cons_self
      obtain ⟨mid, d, rfl⟩ := (eq_nil_or_concat' w).resolve_left hw.ne_nil
      exact ⟨mid, d, unwords_singleton _, hw.not_space d (by simp)⟩
    | cons v ws ih =>
      intro w hw
      obtain ⟨mid, d, heq, hd⟩ := ih v fun x hx => hw x (mem_cons_of_mem w hx)
      exact ⟨w ++ 32 :: mid, d, by rw [unwords_cons, heq]; simp, hd⟩
  obtain ⟨mid, d, heq, hd⟩ := hlast ws w' fun x hx => hws x (mem_cons_of_mem w hx)
  have hw := hws w mem_cons_self
  obtain ⟨c, cs, rfl⟩ := exists_cons_of_ne_nil hw.ne_nil
  rw [unwords_cons, heq]
  have h := trimSpace_of_ends (cs ++ 32 :: mid) (hw.not_space c mem_cons_self) hd
  simpa using h

end words

section lines

theorem dropCR_of_not_mem {s : Bytes} (h : 13 ∉ s) : dropCR s = s := if_neg fun hlast => h (mem_of_getLast? hlast)

theorem splitOn_unlines : ∀ {ls : List Bytes}, (∀ l ∈ ls, 10 ∉ l) → (unlines ls).splitOn 10 = ls ++ [[]]
  | [], _ => rfl
  | l :: ls, hls => by
    rw [unlines, flatMap_cons, append_assoc, singleton_append,
      splitOn_append_cons_self_of_not_mem (hls l mem_cons_self), ← unlines,
      splitOn_unlines fun m hm => hls m (mem_cons_of_mem l hm)]
    rfl

theorem lines_unlines {ls : List Bytes} (hls : ∀ l ∈ ls, 10 ∉ l ∧ 13 ∉ l) : lines (unlines ls) = ls := by
  rw [lines, splitOn_unlines fun l hl => (hls l hl).1]
  simp only [getLast?_append, getLast?_singleton, Option.some_or, if_true, dropLast_concat]
  rw [map_congr_left fun l hl => dropCR_of_not_mem (hls l hl).2, map_id']

end lines

section cut

variable {b : UInt8} {x y s : Bytes}

theorem cut_append (h : b ∉ x) : cut b (x ++ b :: y) = some (x, y) := by
  induction x with
  | nil => simp [cut]
  | cons c x ih =>
    obtain ⟨hc, hx⟩ := not_or.1 (mt mem_cons.2 h)
    rw [cons_append, cut, if_neg (Ne.symm hc), ih hx]
    rfl

theorem eq_of_cut (h : cut b s = some (x, y)) : s = x ++ b :: y := by
  induction s generalizing x with
  | nil => cases h
  | cons c s ih =>
    rw [cut] at h
    split at h
    · rename_i hc
      obtain ⟨rfl, rfl⟩ := Prod.ext_iff.1 (Option.some.inj h)
      rw [hc]
      rfl
    · obtain ⟨p, hp, heq⟩ := Option.map_eq_some_iff.1 h
      obtain ⟨rfl, rfl⟩ := Prod.ext_iff.1 heq
      rw [ih hp]
      rfl

theorem cut_eq_none (h : b ∉ s) : cut b s = none := by
  induction s with
  | nil => rfl
  | cons c s ih =>
    obtain ⟨hc, hs⟩ := not_or.1 (mt mem_cons.2 h)
    rw [cut, if_neg (Ne.symm hc), ih hs]
    rfl

theorem cutLast_append (h : b ∉ y) : cutLast b (x ++ b :: y) = some (x, y) := by
  rw [cutLast, reverse_append, reverse_cons, append_assoc, singleton_append, cut_append (by simpa using h)]
  simp

theorem eq_of_cutLast (h : cutLast b s = some (x, y)) : s = x ++ b :: y := by
  obtain ⟨p, hp, heq⟩ := Option.map_eq_some_iff.1 h
  obtain ⟨rfl, rfl⟩ := Prod.ext_iff.1 heq
  rw [← reverse_reverse s, eq_of_cut hp]
  simp

end cut

section numbers

theorem atoi_itoa {n : Int} (hlo : -2 ^ 63 ≤ n) (hhi : n < 2 ^ 63) : atoi (itoa n) = n := by
  have hparse := parseInt_itoa hlo hhi
  generalize itoa n = s at hparse ⊢
  -- where there is no error, the two agree
  unfold parseInt at hparse
  unfold atoi
  split at hparse <;> obtain ⟨m, hd, hm⟩ := Option.bind_eq_some_iff.1 hparse <;>
    simp only [hd, Option.map_some, Option.getD_some] <;> split at hm <;> cases hm <;> omega

theorem atou_itoa (n : UInt64) : atou (itoa n.toNat) = n := by
  have hlt := n.toNat_lt
  rw [atou, itoa, if_pos (Int.natCast_nonneg _), Int.toNat_natCast,
    parseDigits_digits (Nat.lt_succ_self _), Option.getD_some, Nat.min_eq_left (by omega), UInt64.ofNat_toNat]

theorem isDigit_of_mem_itoa {n : Nat} {b : UInt8} (hb : b ∈ itoa n) : isDigit b := by
  exact isDigit_of_mem_digits (Nat.lt_succ_self _) hb

theorem word_itoa (n : Int) : Word (itoa n) where
  ne_nil := itoa_ne_nil n
  not_space b hb := by
    rcases mem_itoa hb with rfl | hdigit
    · rfl
    · simp only [isDigit, Bool.and_eq_true, decide_eq_true_eq, UInt8.le_iff_toNat_le] at hdigit
      simp [isSpace, UInt8.le_iff_toNat_le, ← UInt8.toNat_inj] at hdigit ⊢
      omega

end numbers

end Hayakv
