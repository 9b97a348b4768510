import Hayakv.Lib.Words
import Mathlib.Data.BitVec

/-!
# The nodes of a cluster and their lines in `nodes.conf`

A node of `internal/rediscluster`: its address, flags, master, config epoch and
the bitmap of its slots. `nodesLine` writes a node as a line of words, with its
slots as ranges; `parseNodeLine` reads such a line.

* `flatMap_slotRanges`: the ranges list the slots of the bitmap in ascending order;
* `parseNodeLine_nodesLine`: a line of words is read back, with the slots of the
  node and whether it is myself's;
* `parsed_eq`: all fields are restored if the address has no second `@`, the master
  is not called `-`, and no unknown flag is set.
-/

namespace Hayakv.Cluster

open List

def slotCount : Nat := 16384

def allSlots : List Nat := List.range slotCount

theorem allSlots_eq : allSlots = range slotCount := rfl

theorem mem_allSlots {s : Nat} : s ∈ allSlots ↔ s < slotCount := by
  exact mem_range

attribute [irreducible] allSlots

inductive NodeFlag where
  | myself | master | slave | pfail | fail | handshake | noAddr
deriving DecidableEq, Repr

namespace NodeFlag

def bit : NodeFlag → Nat
  | myself => 0
  | master => 1
  | slave => 2
  | pfail => 3
  | fail => 4
  | handshake => 5
  | noAddr => 6

def name : NodeFlag → Bytes
  | myself => str "myself"
  | master => str "master"
  | slave => str "slave"
  | pfail => str "fail?"
  | fail => str "fail"
  | handshake => str "handshake"
  | noAddr => str "noaddr"

def all : List NodeFlag := [myself, master, slave, pfail, fail, handshake, noAddr]

def ofName (s : Bytes) : Option NodeFlag := all.find? fun f => f.name = s

theorem mem_all (f : NodeFlag) : f ∈ all := by cases f <;> decide

theorem ofName_name (f : NodeFlag) : ofName f.name = some f := by cases f <;> decide

theorem bit_injective {f g : NodeFlag} (h : f.bit = g.bit) : f = g := by
  cases f <;> cases g <;> first | rfl | cases h

theorem bit_lt (f : NodeFlag) : f.bit < 7 := by cases f <;> decide

end NodeFlag

abbrev Flags := BitVec 32

namespace Flags

def has (fl : Flags) (f : NodeFlag) : Bool := fl.getLsbD f.bit

def set (fl : Flags) (f : NodeFlag) : Flags := fl ||| BitVec.twoPow 32 f.bit

def clear (fl : Flags) (f : NodeFlag) : Flags := fl &&& ~~~BitVec.twoPow 32 f.bit

variable {fl : Flags} {f g : NodeFlag}

@[simp] theorem has_zero : has 0 f = false := by simp [has]

theorem getLsbD_twoPow_bit : (BitVec.twoPow 32 f.bit).getLsbD g.bit = decide (g = f) := by
  rw [BitVec.getLsbD_twoPow, decide_eq_true (f.bit_lt.trans (by decide)), Bool.true_and]
  exact decide_eq_decide.2 ⟨fun h => NodeFlag.bit_injective h.symm, fun h => congrArg NodeFlag.bit h.symm⟩

@[simp] theorem has_set : (fl.set f).has g = (fl.has g || decide (g = f)) := by
  rw [has, set, BitVec.getLsbD_or, getLsbD_twoPow_bit, ← has]

@[simp] theorem has_clear : (fl.clear f).has g = (fl.has g && !decide (g = f)) := by
  rw [has, clear, BitVec.getLsbD_and, BitVec.getLsbD_not, getLsbD_twoPow_bit,
    decide_eq_true (g.bit_lt.trans (by decide)), Bool.true_and, ← has]

end Flags

/-- A node of the cluster; bit `s` of `slots` stands for slot `s`. -/
structure ClusterNode where
  id : Bytes
  ip : Bytes := []
  port : Int64 := 0
  cport : Int64 := 0
  flags : Flags := 0
  masterID : Bytes := []
  configEpoch : UInt64 := 0
  pingSent : Int64 := 0
  pongRecv : Int64 := 0
  linkUp : Bool := false
  slots : BitVec slotCount := 0
deriving DecidableEq

namespace ClusterNode

/-- The bus port of `newNode`. Its panic is not reached: a port above 55535 leaves a positive one. -/
def newNode (id ip : Bytes) (port : Int64) : ClusterNode :=
  let cport := if port + 10000 > 65535 then port - 10000 else port + 10000
  { id, ip, port, cport, flags := Flags.set 0 .master, linkUp := true }

def addSlot (n : ClusterNode) (slot : Nat) : ClusterNode :=
  { n with slots := n.slots ||| BitVec.twoPow slotCount slot }

def delSlot (n : ClusterNode) (slot : Nat) : ClusterNode :=
  { n with slots := n.slots &&& ~~~BitVec.twoPow slotCount slot }

def clearSlots (n : ClusterNode) : ClusterNode := allSlots.foldl delSlot n

def hasSlot (n : ClusterNode) (slot : Nat) : Bool := n.slots.getLsbD slot

variable {n : ClusterNode} {s slot : Nat}

@[simp] theorem hasSlot_addSlot :
    (n.addSlot slot).hasSlot s = (n.hasSlot s || (decide (slot < slotCount) && decide (s = slot))) := by
  simp [hasSlot, addSlot, eq_comm]

@[simp] theorem hasSlot_delSlot : (n.delSlot slot).hasSlot s = (n.hasSlot s && !decide (s = slot)) := by
  by_cases hs : s < slotCount
  · simp [hasSlot, delSlot, hs]
  · simp [hasSlot, delSlot, BitVec.getLsbD_of_ge _ _ (not_lt.1 hs)]

theorem hasSlot_lt (h : n.hasSlot s = true) : s < slotCount := by
  by_contra hs
  simp [hasSlot, BitVec.getLsbD_of_ge _ _ (not_lt.1 hs)] at h

theorem foldl_delSlot (l : List Nat) (n : ClusterNode) :
    l.foldl delSlot n = { n with slots := (l.foldl delSlot n).slots } ∧
      ∀ s, (l.foldl delSlot n).hasSlot s = (n.hasSlot s && !decide (s ∈ l)) := by
  induction l generalizing n with
  | nil => exact ⟨rfl, by simp⟩
  | cons a l ih =>
    obtain ⟨heq, hbits⟩ := ih (n.delSlot a)
    refine ⟨?_, fun s => ?_⟩
    · rw [foldl_cons, heq]
      rfl
    · rw [foldl_cons, hbits]
      by_cases hs : s = a <;> simp [hs]

theorem clearSlots_spec (n : ClusterNode) :
    n.clearSlots = { n with slots := n.clearSlots.slots } ∧ ∀ s, n.clearSlots.hasSlot s = false := by
  obtain ⟨heq, hbits⟩ := foldl_delSlot allSlots n
  refine ⟨heq, fun s => (hbits s).trans ?_⟩
  by_cases hs : s < slotCount
  · simp [mem_allSlots, hs]
  · simp [hasSlot, BitVec.getLsbD_of_ge _ _ (not_lt.1 hs)]

/-- The loop of `slotRanges` from slot `s` on, with `k` slots left. `run` is the start of the range
that the loop is in. -/
def rangesFrom (has : Nat → Bool) : Nat → Nat → Option Nat → List (Nat × Nat)
  | 0, s, some start => [(start, s - 1)]
  | 0, _, none => []
  | k + 1, s, some start =>
    if has s then rangesFrom has k (s + 1) (some start) else (start, s - 1) :: rangesFrom has k (s + 1) none
  | k + 1, s, none => rangesFrom has k (s + 1) (if has s then some s else none)

def slotRanges (n : ClusterNode) : List (Nat × Nat) := rangesFrom n.hasSlot slotCount 0 none

variable (fl : Flags)

def flagString : Bytes :=
  let parts := (NodeFlag.all.filter fl.has).map NodeFlag.name
  if parts = [] then str "noflags" else [44].intercalate parts

def rangeText (r : Nat × Nat) : Bytes := if r.1 = r.2 then itoa r.1 else itoa r.1 ++ 45 :: itoa r.2

/-- The words of a line that are not slots. -/
def words (n : ClusterNode) : List Bytes :=
  [n.id, n.ip ++ 58 :: (itoa n.port.toInt ++ 64 :: itoa n.cport.toInt), flagString n.flags,
    if n.masterID = [] then str "-" else n.masterID, itoa n.pingSent.toInt, itoa n.pongRecv.toInt,
    itoa n.configEpoch.toNat, if n.linkUp then str "connected" else str "disconnected"]

def nodesLine (n : ClusterNode) : Bytes := unwords (n.words ++ n.slotRanges.map rangeText)

/-! ## Reading a line -/

/-- `uint16(s)`. -/
def uint16 (s : Int) : Nat := (s % 2 ^ 16).toNat

/-- The slots of a word after the eighth. -/
def tokenSlots (tok : Bytes) : List Nat :=
  if tok.head? = some 91 then []
  else match cut 45 tok with
    | some (lo, hi) => (List.range (atoi hi - atoi lo + 1).toNat).map fun i : Nat => uint16 (atoi lo + i)
    | none => [uint16 (atoi tok)]

/-- The address `ip:port@cport`. -/
def readAddr (addr : Bytes) : Bytes × Int × Int :=
  let (addr, cport) :=
    match cut 64 addr with
    | some (addr, cport) => (addr, atoi cport)
    | none => (addr, 0)
  match cutLast 58 addr with
  | some (ip, port) => (ip, atoi port, cport)
  | none => ([], 0, cport)

def readFlags (s : Bytes) : Flags :=
  (s.splitOn 44).foldl (fun fl name => ((NodeFlag.ofName name).map fl.set).getD fl) 0

/-- The node of a line without its slots, its slots, and whether it is myself. -/
def parseNodeLine (line : Bytes) : Option (ClusterNode × List Nat × Bool) :=
  match fields line with
  | id :: addr :: flags :: master :: ping :: pong :: epoch :: link :: toks =>
    let (ip, port, cport) := readAddr addr
    some ({ id, ip, port := .ofInt port, cport := .ofInt cport, flags := readFlags flags
            masterID := if master = str "-" then [] else master
            pingSent := .ofInt (atoi ping), pongRecv := .ofInt (atoi pong), configEpoch := atou epoch
            linkUp := link = str "connected" },
      toks.flatMap tokenSlots, str "myself" ∈ flags.splitOn 44)
  | _ => none

/-! ## Slots -/

def rangeSlots (r : Nat × Nat) : List Nat := List.range' r.1 (r.2 + 1 - r.1)

def runSlots (s : Nat) : Option Nat → List Nat
  | none => []
  | some start => List.range' start (s - start)

theorem flatMap_rangesFrom (has : Nat → Bool) (k s : Nat) (run : Option Nat) (hrun : ∀ start ∈ run, start < s) :
    (rangesFrom has k s run).flatMap rangeSlots = runSlots s run ++ (range' s k).filter has := by
  induction k generalizing s run with
  | zero =>
    cases run with
    | none => rfl
    | some start =>
      have hlt := hrun start rfl
      simp [rangesFrom, rangeSlots, runSlots, show s - 1 + 1 = s by omega]
  | succ k ih =>
    rw [range'_succ, filter_cons]
    cases run with
    | none =>
      by_cases hs : has s
      · rw [rangesFrom, if_pos hs, if_pos hs, ih (s + 1) (some s) (by simp)]
        simp [runSlots, show s + 1 - s = 1 by omega]
      · rw [rangesFrom, if_neg hs, if_neg hs, ih (s + 1) none (by simp)]
        rfl
    | some start =>
      have hlt := hrun start rfl
      by_cases hs : has s
      · -- the range that the loop is in grows by `s`
        have hgrow : range' start (s + 1 - start) = range' start (s - start) ++ [s] := by
          rw [show s + 1 - start = s - start + 1 by omega, range'_concat]
          simp
          omega
        rw [rangesFrom, if_pos hs, if_pos hs, ih (s + 1) (some start) (by simp; omega), runSlots, hgrow, append_assoc]
        rfl
      · rw [rangesFrom, if_neg hs, if_neg hs, flatMap_cons, ih (s + 1) none (by simp), runSlots,
          nil_append, rangeSlots, runSlots, show s - 1 + 1 - start = s - start by omega]

theorem flatMap_slotRanges (n : ClusterNode) : n.slotRanges.flatMap rangeSlots = allSlots.filter n.hasSlot := by
  rw [slotRanges, flatMap_rangesFrom _ _ _ _ (by simp), allSlots_eq, range_eq_range']
  rfl

theorem mem_rangesFrom {has : Nat → Bool} {k s : Nat} {run : Option Nat} (hrun : ∀ start ∈ run, start < s)
    {r : Nat × Nat} (hr : r ∈ rangesFrom has k s run) : r.1 ≤ r.2 ∧ r.2 < s + k := by
  induction k generalizing s run with
  | zero =>
    cases run with
    | none => exact absurd hr not_mem_nil
    | some start =>
      have hlt := hrun start rfl
      obtain rfl := mem_singleton.1 hr
      exact ⟨Nat.le_sub_one_of_lt hlt, by dsimp only; omega⟩
  | succ k ih =>
    cases run with
    | none =>
      have := ih (by split <;> simp) hr
      omega
    | some start =>
      have hlt := hrun start rfl
      rw [rangesFrom] at hr
      split at hr
      · have := ih (by simp; omega) hr
        omega
      · rcases mem_cons.1 hr with rfl | hr
        · exact ⟨Nat.le_sub_one_of_lt hlt, by dsimp only; omega⟩
        · have := ih (by simp) hr
          omega

theorem mem_slotRanges {r : Nat × Nat} (hr : r ∈ n.slotRanges) : r.1 ≤ r.2 ∧ r.2 < slotCount := by
  have := mem_rangesFrom (by simp) hr
  omega

theorem not_mem_itoa {m : Nat} {b : UInt8} (hb : isDigit b = false) : b ∉ itoa m := fun h => by
  simp [isDigit_of_mem_itoa h] at hb

theorem uint16_natCast {m : Nat} (hm : m < 2 ^ 16) : uint16 (m : Int) = m := by
  rw [uint16]
  omega

theorem tokenSlots_rangeText {lo hi : Nat} (hle : lo ≤ hi) (hhi : hi < 2 ^ 16) :
    tokenSlots (rangeText (lo, hi)) = rangeSlots (lo, hi) := by
  have hatoi : ∀ m : Nat, m < 2 ^ 16 → atoi (itoa m) = m := fun m hm => atoi_itoa (by omega) (by omega)
  have hhead : ∀ rest, (itoa lo ++ rest).head? ≠ some 91 := by
    intro rest h
    obtain ⟨c, cs, hc⟩ := exists_cons_of_ne_nil (itoa_ne_nil lo)
    rw [hc, cons_append, head?_cons, Option.some.injEq] at h
    exact not_mem_itoa rfl (show 91 ∈ itoa lo by rw [hc, h]; exact mem_cons_self)
  by_cases heq : lo = hi
  · subst heq
    have hhead := hhead []
    rw [append_nil] at hhead
    rw [rangeText, if_pos rfl, tokenSlots, if_neg hhead, cut_eq_none (not_mem_itoa rfl), hatoi lo hhi,
      uint16_natCast hhi]
    simp [rangeSlots]
  · rw [rangeText, if_neg heq, tokenSlots, if_neg (hhead _), cut_append (not_mem_itoa rfl)]
    dsimp only
    rw [hatoi lo (by omega), hatoi hi hhi, rangeSlots, range'_eq_map_range,
      show (hi - lo + 1 : Int).toNat = hi + 1 - lo by omega]
    refine map_congr_left fun i hi' => ?_
    have := mem_range.1 hi'
    rw [← Nat.cast_add, uint16_natCast (by omega)]

theorem flatMap_tokenSlots (n : ClusterNode) :
    (n.slotRanges.map rangeText).flatMap tokenSlots = allSlots.filter n.hasSlot := by
  rw [flatMap_map, ← flatMap_slotRanges]
  refine flatMap_congr fun r hr => ?_
  obtain ⟨hle, hlt⟩ := mem_slotRanges hr
  exact tokenSlots_rangeText hle (hlt.trans (by decide))

/-! ## Flags -/

theorem splitOn_flagString : (flagString fl).splitOn 44 =
    if NodeFlag.all.filter fl.has = [] then [str "noflags"] else (NodeFlag.all.filter fl.has).map NodeFlag.name := by
  rw [flagString]
  by_cases h : NodeFlag.all.filter fl.has = []
  · rw [h]
    decide
  · rw [if_neg (by simpa using h), if_neg h]
    refine splitOn_intercalate 44 (fun w hw => ?_) (by simpa using h)
    obtain ⟨f, -, rfl⟩ := mem_map.1 hw
    cases f <;> decide

theorem mem_splitOn_flagString (f : NodeFlag) : f.name ∈ (flagString fl).splitOn 44 ↔ fl.has f = true := by
  have hinj : ∀ g : NodeFlag, g.name = f.name → g = f := fun g h =>
    Option.some.inj ((NodeFlag.ofName_name g).symm.trans (h ▸ NodeFlag.ofName_name f))
  have hno : f.name ≠ str "noflags" := by cases f <;> decide
  rw [splitOn_flagString]
  split
  · rename_i h
    refine iff_of_false (by simpa using hno) fun hf => ?_
    exact absurd (mem_filter.2 ⟨f.mem_all, hf⟩) (h ▸ not_mem_nil)
  · constructor
    · intro hmem
      obtain ⟨g, hg, hname⟩ := mem_map.1 hmem
      exact hinj g hname ▸ (mem_filter.1 hg).2
    · exact fun hf => mem_map.2 ⟨f, mem_filter.2 ⟨f.mem_all, hf⟩, rfl⟩

theorem readFlags_flagString : readFlags (flagString fl) = (NodeFlag.all.filter fl.has).foldl Flags.set 0 := by
  rw [readFlags, splitOn_flagString]
  split
  · rename_i h
    rw [h]
    decide
  · rw [foldl_map]
    simp only [NodeFlag.ofName_name, Option.map_some, Option.getD_some]

theorem has_foldl_set (l : List NodeFlag) (fl : Flags) (g : NodeFlag) :
    (l.foldl Flags.set fl).has g = (fl.has g || decide (g ∈ l)) := by
  induction l generalizing fl with
  | nil => simp
  | cons f l ih => simp [ih, Bool.or_assoc]

theorem getLsbD_foldl_set (l : List NodeFlag) (fl : Flags) {i : Nat} (hi : 7 ≤ i) :
    (l.foldl Flags.set fl).getLsbD i = fl.getLsbD i := by
  induction l generalizing fl with
  | nil => rfl
  | cons f l ih =>
    have := f.bit_lt
    rw [foldl_cons, ih, Flags.set, BitVec.getLsbD_or, BitVec.getLsbD_twoPow]
    simp [show f.bit ≠ i by omega]

theorem NodeFlag.exists_bit {i : Nat} (hi : i < 7) : ∃ f : NodeFlag, f.bit = i := by
  have h : ∀ i < 7, ∃ f ∈ NodeFlag.all, f.bit = i := by decide
  obtain ⟨f, -, hf⟩ := h i hi
  exact ⟨f, hf⟩

theorem readFlags_eq {fl : Flags} (h : fl.toNat < 2 ^ 7) : readFlags (flagString fl) = fl := by
  rw [readFlags_flagString]
  refine BitVec.eq_of_getLsbD_eq fun i hi => ?_
  by_cases hi7 : i < 7
  · obtain ⟨f, rfl⟩ := NodeFlag.exists_bit hi7
    have hf := has_foldl_set (NodeFlag.all.filter fl.has) 0 f
    simp only [Flags.has_zero, Bool.false_or, mem_filter, f.mem_all, true_and, Bool.decide_eq_true] at hf
    exact hf
  · have hzero : fl.getLsbD i = false :=
      Nat.testBit_lt_two_pow (h.trans_le (Nat.pow_le_pow_right (by decide) (not_lt.1 hi7)))
    rw [getLsbD_foldl_set _ _ (not_lt.1 hi7), hzero]
    simp

/-! ## Lines -/

/-- A text of printable ASCII without white space. -/
def Clean (w : Bytes) : Prop := ∀ b ∈ w, 33 ≤ b ∧ b ≤ 126

instance (w : Bytes) : Decidable (Clean w) :=
  decidable_of_iff (w.all (fun b => decide (33 ≤ b) && decide (b ≤ 126)) = true) (by simp [Clean])

theorem clean_nil : Clean [] := fun _ hb => absurd hb not_mem_nil

theorem Clean.not_space {w : Bytes} (h : Clean w) : ∀ b ∈ w, isSpace b = false := by
  intro b hb
  have := h b hb
  simp [isSpace, UInt8.le_iff_toNat_le, ← UInt8.toNat_inj] at this ⊢
  omega

theorem Clean.word {w : Bytes} (h : Clean w) (hne : w ≠ []) : Word w := ⟨hne, h.not_space⟩

structure Plain (n : ClusterNode) : Prop where
  id_ne : n.id ≠ []
  id : Clean n.id
  ip : Clean n.ip
  masterID : Clean n.masterID

instance (n : ClusterNode) : Decidable n.Plain :=
  decidable_of_iff (n.id ≠ [] ∧ Clean n.id ∧ Clean n.ip ∧ Clean n.masterID)
    ⟨fun h => ⟨h.1, h.2.1, h.2.2.1, h.2.2.2⟩, fun h => ⟨h.id_ne, h.id, h.ip, h.masterID⟩⟩

theorem word_flagString : Word (flagString fl) := by
  rw [flagString]
  have hname : ∀ f : NodeFlag, Word f.name := fun f => by cases f <;> decide
  by_cases h : NodeFlag.all.filter fl.has = []
  · rw [h]
    decide
  rw [if_neg (by simpa using h)]
  obtain ⟨f, l, hl⟩ := exists_cons_of_ne_nil h
  refine ⟨fun hnil => ?_, fun b hb => ?_⟩
  · have hsplit := congrArg (splitOn 44) hnil
    rw [splitOn_intercalate 44 (fun w hw => ?_) (by simpa using h)] at hsplit
    · rw [hl, map_cons] at hsplit
      exact (hname f).ne_nil (cons.inj hsplit).1
    · obtain ⟨g, -, rfl⟩ := mem_map.1 hw
      cases g <;> decide
  · rcases mem_intercalate hb with rfl | ⟨w, hw, hbw⟩
    · rfl
    · obtain ⟨g, -, rfl⟩ := mem_map.1 hw
      exact (hname g).not_space b hbw

theorem word_rangeText (r : Nat × Nat) : Word (rangeText r) := by
  rw [rangeText]
  split
  · exact word_itoa _
  refine ⟨by simp, fun b hb => ?_⟩
  rcases mem_append.1 hb with hb | hb
  · exact (word_itoa _).not_space b hb
  · rcases mem_cons.1 hb with rfl | hb
    · rfl
    · exact (word_itoa _).not_space b hb

theorem Plain.words (h : n.Plain) : ∀ w ∈ n.words ++ n.slotRanges.map rangeText, Word w := by
  have haddr : Word (n.ip ++ 58 :: (itoa n.port.toInt ++ 64 :: itoa n.cport.toInt)) := by
    refine ⟨by simp, fun b hb => ?_⟩
    simp only [mem_append, mem_cons] at hb
    rcases hb with hb | rfl | hb | rfl | hb
    · exact h.ip.not_space b hb
    · rfl
    · exact (word_itoa _).not_space b hb
    · rfl
    · exact (word_itoa _).not_space b hb
  have hmaster : Word (if n.masterID = [] then str "-" else n.masterID) := by
    split
    · decide
    · exact h.masterID.word ‹_›
  have hlink : Word (if n.linkUp then str "connected" else str "disconnected") := by
    split <;> decide
  intro w hw
  rcases mem_append.1 hw with hw | hw
  · simp only [ClusterNode.words, mem_cons, not_mem_nil, or_false] at hw
    rcases hw with rfl | rfl | rfl | rfl | rfl | rfl | rfl | rfl
    · exact h.id.word h.id_ne
    · exact haddr
    · exact word_flagString _
    · exact hmaster
    · exact word_itoa _
    · exact word_itoa _
    · exact word_itoa _
    · exact hlink
  · obtain ⟨r, -, rfl⟩ := mem_map.1 hw
    exact word_rangeText r

/-- What is read from the words of a node's line: the node without its slots, as far as the words tell. -/
def parsed (n : ClusterNode) : ClusterNode :=
  let addr := readAddr (n.ip ++ 58 :: (itoa n.port.toInt ++ 64 :: itoa n.cport.toInt))
  { n with
    ip := addr.1, port := .ofInt addr.2.1, cport := .ofInt addr.2.2, flags := readFlags (flagString n.flags)
    masterID := if n.masterID = str "-" then [] else n.masterID, slots := 0 }

theorem parseNodeLine_nodesLine (h : n.Plain) : parseNodeLine n.nodesLine =
    some (n.parsed, allSlots.filter n.hasSlot, n.flags.has .myself) := by
  have hslots := flatMap_tokenSlots n
  have hmaster : (if (if n.masterID = [] then str "-" else n.masterID) = str "-" then []
      else if n.masterID = [] then str "-" else n.masterID) =
      if n.masterID = str "-" then [] else n.masterID := by
    by_cases hm : n.masterID = []
    · rw [hm]
      decide
    · rw [if_neg hm]
  have hlink : decide ((if n.linkUp then str "connected" else str "disconnected") = str "connected") = n.linkUp := by
    cases n.linkUp <;> decide
  have hping : ∀ x : Int64, Int64.ofInt (atoi (itoa x.toInt)) = x := fun x => by
    rw [atoi_itoa x.le_toInt x.toInt_lt, Int64.ofInt_toInt]
  have hmyself : decide (str "myself" ∈ (flagString n.flags).splitOn 44) = n.flags.has .myself := by
    rw [Bool.eq_iff_iff, decide_eq_true_eq]
    exact mem_splitOn_flagString n.flags .myself
  rw [parseNodeLine, nodesLine, fields_unwords h.words]
  simp only [words, cons_append, nil_append, hslots, hmaster, hlink, parsed, atou_itoa, hping, hmyself]

/-- Nothing of the node's fields is lost in its line. -/
structure Exact (n : ClusterNode) : Prop where
  ip : 64 ∉ n.ip
  masterID : n.masterID ≠ str "-"
  flags : n.flags.toNat < 2 ^ 7

instance (n : ClusterNode) : Decidable n.Exact :=
  decidable_of_iff (64 ∉ n.ip ∧ n.masterID ≠ str "-" ∧ n.flags.toNat < 2 ^ 7)
    ⟨fun h => ⟨h.1, h.2.1, h.2.2⟩, fun h => ⟨h.ip, h.masterID, h.flags⟩⟩

theorem readAddr_append (h : 64 ∉ n.ip) : readAddr (n.ip ++ 58 :: (itoa n.port.toInt ++ 64 :: itoa n.cport.toInt)) =
      (n.ip, n.port.toInt, n.cport.toInt) := by
  have hnot : ∀ {b : UInt8} {x : Int}, b ≠ 45 → isDigit b = false → b ∉ itoa x := by
    intro b x h45 hdigit hmem
    rcases mem_itoa hmem with hb | hb
    · exact h45 hb
    · simp [hb] at hdigit
  have hat : 64 ∉ n.ip ++ 58 :: itoa n.port.toInt := by
    rw [mem_append, mem_cons, not_or, not_or]
    exact ⟨h, by decide, hnot (by decide) rfl⟩
  rw [readAddr, ← cons_append, ← append_assoc, cut_append hat]
  dsimp only
  rw [cutLast_append (hnot (by decide) rfl)]
  dsimp only
  rw [atoi_itoa n.port.le_toInt n.port.toInt_lt, atoi_itoa n.cport.le_toInt n.cport.toInt_lt]

theorem parsed_eq (h : n.Exact) : n.parsed = { n with slots := 0 } := by
  rw [parsed, readAddr_append h.ip, readFlags_eq h.flags, if_neg h.masterID]
  simp

theorem foldl_addSlot_eq (l : List Nat) (n : ClusterNode) :
    l.foldl addSlot n = { n with slots := (l.foldl addSlot n).slots } := by
  induction l generalizing n with
  | nil => rfl
  | cons s l ih =>
    rw [foldl_cons, ih]
    rfl

theorem hasSlot_foldl_addSlot (l : List Nat) (n : ClusterNode) (s : Nat) :
    (l.foldl addSlot n).hasSlot s = (n.hasSlot s || (decide (s < slotCount) && decide (s ∈ l))) := by
  induction l generalizing n with
  | nil => simp
  | cons slot l ih =>
    rw [foldl_cons, ih, hasSlot_addSlot]
    by_cases heq : s = slot
    · subst heq
      by_cases hs : s < slotCount <;> simp [hs]
    · simp [heq]

theorem foldl_addSlot_filter (n : ClusterNode) {m : ClusterNode} (hm : m.slots = 0) :
    (allSlots.filter n.hasSlot).foldl addSlot m = { m with slots := n.slots } := by
  rw [foldl_addSlot_eq]
  have hslots : ((allSlots.filter n.hasSlot).foldl addSlot m).slots = n.slots := by
    refine BitVec.eq_of_getLsbD_eq fun s hs => ?_
    have h := hasSlot_foldl_addSlot (allSlots.filter n.hasSlot) m s
    have hzero : m.slots.getLsbD s = false := by
      rw [hm]
      exact BitVec.getLsbD_zero
    simp only [hasSlot, hzero, Bool.false_or, mem_filter, mem_allSlots, hs, true_and, decide_true,
      Bool.true_and, Bool.decide_eq_true] at h
    exact h
  rw [hslots]

def reloaded (n : ClusterNode) : ClusterNode := { n.parsed with slots := n.slots }

theorem mem_readAddr {addr : Bytes} {b : UInt8} (h : b ∈ (readAddr addr).1) : b ∈ addr := by
  have hlast : ∀ {s : Bytes} {c : Int}, b ∈ (match cutLast 58 s with
      | some (ip, port) => (ip, atoi port, c)
      | none => ([], 0, c)).1 → b ∈ s := by
    intro s c hb
    split at hb
    · rename_i ip port hcut
      rw [eq_of_cutLast hcut]
      exact mem_append_left _ hb
    · cases hb
  rw [readAddr] at h
  cases hcut : cut 64 addr with
  | none =>
    rw [hcut] at h
    exact hlast h
  | some p =>
    rw [hcut] at h
    rw [eq_of_cut hcut]
    exact mem_append_left _ (hlast h)

@[simp] theorem has_reloaded (n : ClusterNode) (f : NodeFlag) : n.reloaded.flags.has f = n.flags.has f := by
  show (readFlags (flagString n.flags)).has f = n.flags.has f
  rw [readFlags_flagString, has_foldl_set, Flags.has_zero]
  simp [f.mem_all]

theorem Plain.reloaded (h : n.Plain) : n.reloaded.Plain := by
  refine ⟨h.id_ne, h.id, fun b hb => ?_, ?_⟩
  · have hdigit : ∀ {i : Int}, b ∈ itoa i → 33 ≤ b ∧ b ≤ 126 := by
      intro i hi
      rcases mem_itoa hi with rfl | hd
      · decide
      · simp only [isDigit, Bool.and_eq_true, decide_eq_true_eq, UInt8.le_iff_toNat_le] at hd
        simp only [UInt8.le_iff_toNat_le, UInt8.reduceToNat] at hd ⊢
        omega
    have hmem := mem_readAddr hb
    simp only [mem_append, mem_cons] at hmem
    rcases hmem with hb | rfl | hb | rfl | hb
    · exact h.ip b hb
    · decide
    · exact hdigit hb
    · decide
    · exact hdigit hb
  · show Clean (if n.masterID = str "-" then [] else n.masterID)
    split
    · exact clean_nil
    · exact h.masterID

theorem reloaded_eq (h : n.Exact) : n.reloaded = n := by
  rw [reloaded, parsed_eq h]

end ClusterNode

end Hayakv.Cluster
