import Hayakv.Lib.Chained
import Hayakv.Lib.Machine
import Hayakv.Lib.Represents
import Hayakv.Object.Listpack
import Hayakv.Object.SimpleDict

/-!
# Hashes and their encodings

`Hash` of `internal/object/encoding.go`: fields and values in turn in a listpack, which is built anew
when a field changes, or a hashtable. It refines the hashes of `Engine.Object`, which have lists of
fields (`Hash.Represents`), and these refine finite maps.
-/

namespace Hayakv.Object

open Engine List HashObj Prod

/-- What an `interface{}` holds here. -/
inductive Val
  | str (s : Bytes)
  | bytes (b : Bytes)
  | int (v : Int)
deriving DecidableEq, Repr

def Val.toBytes : Val → Bytes
  | .str s => s
  | .bytes b => b
  | .int v => itoa v

def Elem.val : Elem → Val
  | .str s => .str s
  | .int v => .int v

def elemLen : Val → Nat
  | .str s => s.length
  | .bytes b => b.length
  | .int _ => 0

/-- `Hash`, without the expiries of its fields. -/
inductive Hash
  | listpack (lp : Listpack)
  | hashtable (d : SimpleDict Val)

namespace Hash

def new : Hash := .listpack .new

/-- `AppendStr` of a value, by its type. -/
def appendValue (lp : Listpack) : Val → Listpack
  | .bytes b => lp.appendStr b
  | .str s => lp.appendStr s
  | .int _ => lp.appendStr []

/-- The loop of `Get` over the fields of a listpack. -/
def getLoop (lp : Listpack) (field : Bytes) : Nat → Nat → Option Val
  | 0, _ => none
  | fuel + 1, i =>
    if i < lp.len then
      match lp.get i with
      | none => none
      | some val =>
        if val = .str field then (lp.get (i + 1 : Nat)).map Elem.val else getLoop lp field fuel (i + 2)
    else none

def get (h : Hash) (field : Bytes) : Option Val :=
  match h with
  | .listpack lp => getLoop lp field lp.len 0
  | .hashtable d => d.get field

def found (lp : Listpack) (field : Bytes) : Bool :=
  lp.range (fun found i val =>
    if i % 2 = 0 then if val = .str field then (true, false) else (found, true) else (found, true)) false

def rebuildListpackWithUpdate (lp : Listpack) (field : Bytes) (value : Val) : Listpack :=
  lp.range (fun newLp i val =>
    if i % 2 = 0 then
      match val with
      | .str s => (newLp.appendStr s, true)
      | .int _ => (newLp, true)
    else
      match val with
      | .str s =>
        if lp.get (i - 1 : Nat) = some (.str field) then (appendValue newLp value, true)
        else (newLp.appendStr s, true)
      | .int _ => (newLp, true)) .new

/-- `convertToHashtable`. The consumer keeps the field whose value comes next. -/
def convertToHashtable (lp : Listpack) : SimpleDict Val :=
  (lp.range (fun (s : Bytes × SimpleDict Val) i val =>
    if i % 2 = 0 then
      match val with
      | .str field => ((field, s.2), true)
      | .int _ => (s, true)
    else
      match val with
      | .str v => ((s.1, (s.2.put s.1 (.bytes v)).1), true)
      | .int _ => (s, true)) ([], .makeSimple)).2

variable (t : EncodingThresholds)

def maybeConvertToHashtable (lp : Listpack) (field : Bytes) (value : Val) : Hash :=
  if lp.len / 2 > t.hashMaxListpackEntries ∨ field.length > t.hashMaxListpackValue ∨
      elemLen value > t.hashMaxListpackValue then
    .hashtable (convertToHashtable lp)
  else .listpack lp

/-- `Put`, with the number of fields added. -/
def put (h : Hash) (field : Bytes) (value : Val) : Hash × Nat :=
  match h with
  | .listpack lp =>
    if found lp field then
      (maybeConvertToHashtable t (rebuildListpackWithUpdate lp field value) field value, 0)
    else (maybeConvertToHashtable t (appendValue (lp.appendStr field) value) field value, 1)
  | .hashtable d =>
    let (d, n) := d.put field value
    (.hashtable d, n)

def putIfAbsent (h : Hash) (field : Bytes) (value : Val) : Hash × Nat :=
  match h with
  | .listpack lp =>
    if found lp field then (.listpack lp, 0)
    else (maybeConvertToHashtable t (appendValue (lp.appendStr field) value) field value, 1)
  | .hashtable d =>
    let (d, n) := d.putIfAbsent field value
    (.hashtable d, n)

/-- The loop of `Remove` over the fields of a listpack. -/
def removeLoop (lp : Listpack) (field : Bytes) : Nat → Nat → Listpack × Bool → Listpack × Bool
  | 0, _, r => r
  | fuel + 1, i, (newLp, removed) =>
    if i < lp.len then
      match lp.get i with
      | none => (newLp, removed)
      | some (.int _) => removeLoop lp field fuel (i + 2) (newLp, removed)
      | some (.str s) =>
        if s = field then removeLoop lp field fuel (i + 2) (newLp, true)
        else
          let newLp := newLp.appendStr s
          let newLp := match lp.get (i + 1 : Nat) with
            | some (.str v) => newLp.appendStr v
            | some (.int v) => newLp.appendInt v
            | none => newLp
          removeLoop lp field fuel (i + 2) (newLp, removed)
    else (newLp, removed)

/-- `Remove`, with what it answers and the number of fields removed. From a listpack it answers the
field. -/
def remove (h : Hash) (field : Bytes) : Option Val × Hash × Nat :=
  match h with
  | .listpack lp =>
    let (newLp, removed) := removeLoop lp field lp.len 0 (.new, false)
    if removed then (some (.str field), .listpack newLp, 1) else (none, .listpack lp, 0)
  | .hashtable d =>
    let (val, d, n) := d.remove field
    (val, .hashtable d, n)

def len : Hash → Nat
  | .listpack lp => lp.len / 2
  | .hashtable d => d.len

def forEach {σ : Type} (o : MapOrder) (h : Hash) (fn : σ → Bytes → Val → σ × Bool) (a : σ) : σ :=
  match h with
  | .listpack lp =>
    (lp.range (fun (s : Bytes × σ) i val =>
      if i % 2 = 0 then
        match val with
        | .str field => ((field, s.2), true)
        | .int _ => (s, true)
      else ((s.1, (fn s.2 s.1 val.val).1), (fn s.2 s.1 val.val).2)) ([], a)).2
  | .hashtable d => d.forEach o fn a

end Hash

/-! ## Listpacks of pairs -/

def pairs (fs : List (Bytes × Bytes)) : List Elem := fs.flatMap fun e => [.str e.1, .str e.2]

section pairs

variable {fs : List (Bytes × Bytes)} {lp : Listpack} {field value : Bytes}

theorem length_pairs (fs : List (Bytes × Bytes)) : (pairs fs).length = 2 * fs.length := by
  induction fs with
  | nil => rfl
  | cons e fs ih =>
    rw [pairs, flatMap_cons, length_append, ← pairs, ih]
    simp only [length_cons, length_nil]
    omega

theorem pairs_append (fs gs : List (Bytes × Bytes)) : pairs (fs ++ gs) = pairs fs ++ pairs gs := by
  simp [pairs]

theorem getElem?_pairs (fs : List (Bytes × Bytes)) (j : Nat) : (pairs fs)[2 * j]? = fs[j]?.map (fun e => .str e.1) ∧
      (pairs fs)[2 * j + 1]? = fs[j]?.map fun e => .str e.2 := by
  induction fs generalizing j with
  | nil => simp [pairs]
  | cons e fs ih =>
    cases j with
    | zero => simp [pairs]
    | succ j =>
      have h := ih j
      simp only [pairs, flatMap_cons, cons_append, nil_append, getElem?_cons_succ,
        show 2 * (j + 1) = 2 * j + 1 + 1 by ring] at h ⊢
      exact h

theorem visit_pairs {σ : Type} (fn : σ → Nat → Elem → σ × Bool) (j : Nat) (s : σ) :
    visit (fun s (e : Elem × Nat) => fn s e.2 e.1) s ((pairs fs).zipIdx (2 * j)) =
      visit (fun s (p : (Bytes × Bytes) × Nat) =>
        if (fn s (2 * p.2) (.str p.1.1)).2 then fn (fn s (2 * p.2) (.str p.1.1)).1 (2 * p.2 + 1) (.str p.1.2)
        else fn s (2 * p.2) (.str p.1.1)) s (fs.zipIdx j) := by
  induction fs generalizing j s with
  | nil => rfl
  | cons e fs ih =>
    have hidx : 2 * j + 1 + 1 = 2 * (j + 1) := by ring
    simp only [pairs, flatMap_cons, cons_append, nil_append, zipIdx_cons, visit]
    rw [hidx, ← pairs]
    split
    · rw [ih]
    · simp

/-- `Range` with a consumer that treats fields and values in different ways. -/
theorem Listpack.Holds.range_pairs {σ : Type} (h : lp.Holds (pairs fs)) (f : σ → Elem → σ × Bool)
    (g : σ → Nat → Elem → σ × Bool) (s : σ) : lp.range (fun s i val => if i % 2 = 0 then f s val else g s i val) s =
      visit (fun s (p : (Bytes × Bytes) × Nat) =>
        if (f s (.str p.1.1)).2 then g (f s (.str p.1.1)).1 (2 * p.2 + 1) (.str p.1.2)
        else f s (.str p.1.1)) s fs.zipIdx := by
  rw [h.range]
  refine (visit_pairs (fun s i val => if i % 2 = 0 then f s val else g s i val) 0 s).trans ?_
  exact visit_congr _ (fun s p _ => by simp [Nat.add_mod]) s

theorem Listpack.Holds.appendPair (h : lp.Holds (pairs fs)) (hf : field.length < 2 ^ 63)
    (hv : value.length < 2 ^ 63) : ((lp.appendStr field).appendStr value).Holds (pairs (fs ++ [(field, value)])) := by
  have happ := (h.appendStr hf).appendStr hv
  rwa [append_assoc, show [Elem.str field] ++ [Elem.str value] = pairs [(field, value)] from rfl,
    ← pairs_append] at happ

theorem Listpack.Holds.foldl_appendPair (h : lp.Holds (pairs fs)) {gs : List (Bytes × Bytes)}
    (hlen : ∀ e ∈ gs, e.1.length < 2 ^ 63 ∧ e.2.length < 2 ^ 63) :
    (gs.foldl (fun lp e => (lp.appendStr e.1).appendStr e.2) lp).Holds (pairs (fs ++ gs)) := by
  induction gs generalizing lp fs with
  | nil => simpa using h
  | cons e gs ih =>
    obtain ⟨hf, hv⟩ := hlen e mem_cons_self
    simpa using ih (h.appendPair hf hv) fun e' he' => hlen e' (mem_cons_of_mem e he')

end pairs

namespace Hash

variable {fs : List (Bytes × Bytes)} {lp : Listpack} {field value : Bytes} {t : EncodingThresholds}

section

variable (h : lp.Holds (pairs fs))
include h

theorem getLoop_eq (field : Bytes) {fuel j : Nat} (hfuel : fs.length ≤ j + fuel) :
    (getLoop lp field fuel (2 * j)).map Val.toBytes = (fs.drop j).lookup field := by
  induction fuel generalizing j with
  | zero => simp [getLoop, drop_eq_nil_of_le (show fs.length ≤ j by omega)]
  | succ fuel ih =>
    have hlen : lp.len = 2 * fs.length := by rw [h.len, length_pairs]
    obtain ⟨heven, hodd⟩ := getElem?_pairs fs j
    rw [getLoop, hlen, h.get, h.get, heven, hodd]
    by_cases hj : j < fs.length
    · have hnext := ih (j := j + 1) (by omega)
      rw [if_pos (by omega), getElem?_eq_getElem hj, drop_eq_getElem_cons hj]
      generalize fs[j] = e
      obtain ⟨f, v⟩ := e
      by_cases hf : f = field
      · simp [hf, Elem.val, Val.toBytes]
      · simp [hf, lookup_cons, beq_eq_false_iff_ne.2 (Ne.symm hf), ← hnext, mul_add]
    · rw [if_neg (by omega), drop_eq_nil_of_le (by omega)]
      rfl

theorem found_eq : found lp field = decide (field ∈ fs.map fst) := by
  rw [found, h.range_pairs (fun found val => if val = .str field then (true, false) else (found, true))
    fun found _ _ => (found, true)]
  rw [visit_congr (fun found p => if decide (p.1.1 = field) then (true, false) else (found, true))
    fun found p _ => by by_cases hf : p.1.1 = field <;> simp [hf]]
  rw [visit_zipIdx fun found (e : Bytes × Bytes) => if decide (e.1 = field) then (true, false) else (found, true),
    visit_find fun e : Bytes × Bytes => decide (e.1 = field), Bool.eq_iff_iff]
  simp

theorem lengths_of_holds {e : Bytes × Bytes} (he : e ∈ fs) : e.1.length < 2 ^ 63 ∧ e.2.length < 2 ^ 63 := by
  have hmem : ∀ x ∈ [Elem.str e.1, .str e.2], x ∈ pairs fs := fun x hx => mem_flatMap.2 ⟨e, he, hx⟩
  exact ⟨h.ok (.str e.1) (hmem _ (by simp)), h.ok (.str e.2) (hmem _ (by simp))⟩

omit h in
theorem putField_of_mem (hnd : (fs.map fst).Nodup) (hmem : field ∈ fs.map fst) :
    putField field value fs = fs.map fun e => if e.1 = field then (e.1, value) else e := by
  induction fs with
  | nil => simp at hmem
  | cons e fs ih =>
    obtain ⟨f, v⟩ := e
    obtain ⟨hnot, hnd⟩ := nodup_cons.1 hnd
    by_cases hf : f = field
    · subst hf
      have hrest : fs.map (fun e => if e.1 = f then (e.1, value) else e) = fs := by
        have hid : ∀ e ∈ fs, (if e.1 = f then (e.1, value) else e) = e := fun e he =>
          if_neg fun heq => hnot (mem_map.2 ⟨e, he, heq⟩)
        rw [map_congr_left hid, List.map_id']
      simp [putField, hrest]
    · have hmem' : field ∈ fs.map fst := by simpa [Ne.symm hf] using hmem
      simp [putField, hf, ih hnd hmem']

omit h in
theorem lengths_putField (hfs : ∀ e ∈ fs, e.1.length < 2 ^ 63 ∧ e.2.length < 2 ^ 63) (hf : field.length < 2 ^ 63)
    (hv : value.length < 2 ^ 63) : ∀ e ∈ putField field value fs, e.1.length < 2 ^ 63 ∧ e.2.length < 2 ^ 63 := by
  induction fs with
  | nil => exact forall_mem_singleton.2 ⟨hf, hv⟩
  | cons e fs ih =>
    obtain ⟨he, hfs⟩ := forall_mem_cons.1 hfs
    rw [putField]
    split
    · exact forall_mem_cons.2 ⟨⟨he.1, hv⟩, hfs⟩
    · exact forall_mem_cons.2 ⟨he, ih hfs⟩

/-- The listpack that `rebuildListpackWithUpdate` builds. -/
theorem holds_rebuild (hnd : (fs.map fst).Nodup) (hmem : field ∈ fs.map fst) (hv : value.length < 2 ^ 63) :
    (rebuildListpackWithUpdate lp field (.bytes value)).Holds (pairs (putField field value fs)) := by
  obtain ⟨e, he, hfe⟩ := mem_map.1 hmem
  have hf : field.length < 2 ^ 63 := hfe ▸ (lengths_of_holds h he).1
  have hnil : Listpack.new.Holds (pairs []) := Listpack.holds_new
  have hfold := hnil.foldl_appendPair (lengths_putField (fun _ => lengths_of_holds h) hf hv)
  rw [nil_append] at hfold
  convert hfold using 1
  rw [putField_of_mem hnd hmem, foldl_map, rebuildListpackWithUpdate, h.range_pairs
    (fun newLp val => match val with
      | .str s => (newLp.appendStr s, true)
      | .int _ => (newLp, true))
    fun newLp i val => match val with
      | .str s =>
        if lp.get (i - 1 : Nat) = some (.str field) then (appendValue newLp (.bytes value), true)
        else (newLp.appendStr s, true)
      | .int _ => (newLp, true)]
  -- the element before a value is its field
  rw [visit_congr (fun newLp p =>
    ((newLp.appendStr p.1.1).appendStr (if p.1.1 = field then value else p.1.2), true)) fun newLp p hp => ?_]
  · rw [visit_zipIdx fun (newLp : Listpack) (e : Bytes × Bytes) =>
      ((newLp.appendStr e.1).appendStr (if e.1 = field then value else e.2), true), visit_all
      fun (newLp : Listpack) (e : Bytes × Bytes) =>
        (newLp.appendStr e.1).appendStr (if e.1 = field then value else e.2)]
    congr 1
    funext newLp e
    by_cases hf : e.1 = field <;> simp [hf]
  · obtain ⟨⟨f, v⟩, j⟩ := p
    have hget : lp.get (2 * j : Nat) = some (.str f) := by
      rw [h.get, (getElem?_pairs fs j).1, mem_zipIdx_iff_getElem?.1 hp]
      rfl
    have hprev : lp.get ((2 * j + 1 - 1 : Nat) : Int) = some (.str f) := hget
    by_cases hf : f = field <;> simp only [hprev, hf, if_true, if_false, appendValue, Option.some.injEq, Elem.str.injEq]

theorem convertToHashtable_m (hnd : (fs.map fst).Nodup) :
    (convertToHashtable lp).m = fs.map fun e => (e.1, .bytes e.2) := by
  rw [convertToHashtable, h.range_pairs
    (fun (s : Bytes × SimpleDict Val) val => match val with
      | .str field => ((field, s.2), true)
      | .int _ => (s, true))
    fun s _ val => match val with
      | .str v => ((s.1, (s.2.put s.1 (.bytes v)).1), true)
      | .int _ => (s, true)]
  simp only [if_true]
  rw [visit_zipIdx fun (s : Bytes × SimpleDict Val) (e : Bytes × Bytes) =>
    ((e.1, (s.2.put e.1 (.bytes e.2)).1), true)]
  rw [visit_proj snd (fun (d : SimpleDict Val) (e : Bytes × Bytes) =>
    ((d.put e.1 (.bytes e.2)).1, true)) fun _ _ => ⟨rfl, rfl⟩, visit_all
    fun (d : SimpleDict Val) (e : Bytes × Bytes) => (d.put e.1 (.bytes e.2)).1]
  have hnd' : ((fs.map fun e => (e.1, Val.bytes e.2)).map fst).Nodup := by
    simpa [Function.comp_def] using hnd
  have hput := SimpleDict.foldl_put hnd'
  rwa [foldl_map] at hput

end

theorem removeLoop_eq (field : Bytes) (h : lp.Holds (pairs fs)) {fuel j : Nat} (hfuel : fs.length ≤ j + fuel)
    {newLp : Listpack} {gs : List (Bytes × Bytes)} (hnew : newLp.Holds (pairs gs)) (removed : Bool) :
    (removeLoop lp field fuel (2 * j) (newLp, removed)).1.Holds (pairs (gs ++ removeField field (fs.drop j))) ∧
      (removeLoop lp field fuel (2 * j) (newLp, removed)).2 = (removed || decide (field ∈ (fs.drop j).map fst)) := by
  induction fuel generalizing j newLp gs removed with
  | zero => simpa [removeLoop, removeField, drop_eq_nil_of_le (show fs.length ≤ j by omega)] using hnew
  | succ fuel ih =>
    have hlen : lp.len = 2 * fs.length := by rw [h.len, length_pairs]
    obtain ⟨heven, hodd⟩ := getElem?_pairs fs j
    rw [removeLoop, hlen, h.get, h.get, heven, hodd]
    by_cases hj : j < fs.length
    · have hlens := lengths_of_holds h (getElem_mem hj)
      rw [if_pos (by omega), getElem?_eq_getElem hj, drop_eq_getElem_cons hj]
      generalize fs[j] = e at hlens
      obtain ⟨f, v⟩ := e
      by_cases hf : f = field
      · have hnext := ih (j := j + 1) (by omega) hnew true
        simpa [hf, mul_add, removeField] using hnext
      · have hnext := ih (j := j + 1) (by omega) (hnew.appendPair hlens.1 hlens.2) removed
        simpa [hf, Ne.symm hf, mul_add, removeField] using hnext
    · rw [if_neg (by omega), drop_eq_nil_of_le (by omega)]
      simpa [removeField] using hnew

/-- A hash represents a hash of `Engine.Object`. -/
structure Represents (h : Hash) (o : HashObj) : Prop where
  nodup : (o.fields.map fst).Nodup
  lengths : ∀ e ∈ o.fields, e.1.length < 2 ^ 63 ∧ e.2.length < 2 ^ 63
  repr : match h with
    | .listpack lp => lp.Holds (pairs o.fields) ∧ o.isListpack = true
    | .hashtable d => o.fields = d.m.map (fun e => (e.1, e.2.toBytes)) ∧ o.isListpack = false

namespace Represents

variable {h : Hash} {o : HashObj}

theorem new : Hash.new.Represents HashObj.new := ⟨nodup_nil, by simp [HashObj.new], Listpack.holds_new, rfl⟩

section

variable (hr : h.Represents o)
include hr

theorem get (field : Bytes) : (h.get field).map Val.toBytes = o.get field := by
  obtain ⟨-, -, hrepr⟩ := hr
  cases h with
  | listpack lp =>
    have hlen : lp.len = 2 * o.fields.length := by rw [hrepr.1.len, length_pairs]
    exact getLoop_eq hrepr.1 field (j := 0) (by omega)
  | hashtable d =>
    rw [HashObj.get, hrepr.1]
    simp only [Hash.get, SimpleDict.get]
    induction d.m with
    | nil => rfl
    | cons e es ih =>
      obtain ⟨f, v⟩ := e
      by_cases hf : field = f
      · simp [hf]
      · simpa [lookup_cons, beq_eq_false_iff_ne.2 hf] using ih

theorem len : h.len = o.len := by
  obtain ⟨-, -, hrepr⟩ := hr
  cases h with
  | listpack lp =>
    have hlen : lp.len = 2 * o.fields.length := by rw [hrepr.1.len, length_pairs]
    rw [Hash.len, HashObj.len, hlen]
    omega
  | hashtable d => simp [Hash.len, SimpleDict.len, HashObj.len, hrepr.1]

theorem forEach (ord : MapOrder) :
    ∃ visits : List (Bytes × Val), (visits.map fun e => (e.1, e.2.toBytes)).Perm o.fields ∧
      ∀ {σ : Type} (fn : σ → Bytes → Val → σ × Bool) (a : σ),
        h.forEach ord fn a = visit (fun a (e : Bytes × Val) => fn a e.1 e.2) a visits := by
  obtain ⟨-, -, hrepr⟩ := hr
  cases h with
  | listpack lp =>
    refine ⟨o.fields.map fun e => (e.1, .str e.2), by simp [Val.toBytes, Function.comp_def], fun fn a => ?_⟩
    rw [visit_map]
    simp only [Hash.forEach]
    rw [hrepr.1.range_pairs (fun s val => match val with
        | .str field => ((field, s.2), true)
        | .int _ => (s, true))
      fun s _ val => ((s.1, (fn s.2 s.1 val.val).1), (fn s.2 s.1 val.val).2)]
    simp only [if_true, Elem.val]
    rw [visit_zipIdx fun (s : Bytes × _) (e : Bytes × Bytes) =>
      ((e.1, (fn s.2 e.1 (.str e.2)).1), (fn s.2 e.1 (.str e.2)).2)]
    exact visit_proj snd _ (fun _ _ => ⟨rfl, rfl⟩) _ _
  | hashtable d =>
    refine ⟨ord.order d.m, ?_, fun fn a => rfl⟩
    rw [hrepr.1]
    exact (ord.perm d.m).map _

theorem found (field : Bytes) {lp : Listpack} (hlp : h = .listpack lp) :
    Hash.found lp field = (o.get field).isSome := by
  subst hlp
  rw [found_eq hr.repr.1, HashObj.get, isSome_lookup_eq]

omit hr in
/-- A listpack that holds the fields of a hash, after `maybeConvertToHashtable`. -/
theorem maybeConvert (hlp : lp.Holds (pairs fs)) (hnd : (fs.map fst).Nodup)
    (hlen : ∀ e ∈ fs, e.1.length < 2 ^ 63 ∧ e.2.length < 2 ^ 63) (expire : List (Bytes × Int)) :
    (maybeConvertToHashtable t lp field (.bytes value)).Represents
      (HashObj.maybeConvertToHashtable t ⟨fs, true, expire⟩ field value) := by
  have hnum : lp.len / 2 = fs.length := by
    rw [hlp.len, length_pairs]
    omega
  unfold maybeConvertToHashtable HashObj.maybeConvertToHashtable
  simp only [hnum, elemLen]
  by_cases hc : fs.length > t.hashMaxListpackEntries ∨ field.length > t.hashMaxListpackValue ∨
      value.length > t.hashMaxListpackValue
  · rw [if_pos hc, if_pos (by simpa [or_assoc, HashObj.len] using hc)]
    refine ⟨hnd, hlen, ?_, rfl⟩
    simp [convertToHashtable_m hlp hnd, Val.toBytes, Function.comp_def]
  · rw [if_neg hc, if_neg (by simpa [or_assoc, HashObj.len] using hc)]
    exact ⟨hnd, hlen, hlp, rfl⟩

theorem put (hf : field.length < 2 ^ 63) (hv : value.length < 2 ^ 63) :
    (h.put t field (.bytes value)).2 = (o.put t field value).2 ∧
      (h.put t field (.bytes value)).1.Represents (o.put t field value).1 := by
  have hnd' : ((putField field value o.fields).map fst).Nodup := nodup_putField hr.nodup
  have hlen' := lengths_putField hr.lengths hf hv
  cases h with
  | listpack lp =>
    have hfound := hr.found field rfl
    obtain ⟨fields, isListpack, expire⟩ := o
    obtain ⟨hnd, hlen, hlp, rfl : isListpack = true⟩ := hr
    by_cases hmem : field ∈ fields.map fst
    · simp only [Hash.put, HashObj.put, hfound, HashObj.get, isSome_lookup_eq, hmem, decide_true, if_true, true_and]
      exact maybeConvert (holds_rebuild hlp hnd hmem hv) hnd' hlen' expire
    simp only [Hash.put, HashObj.put, hfound, HashObj.get, isSome_lookup_eq, hmem, decide_false, if_false,
      Bool.false_eq_true, true_and]
    refine maybeConvert ?_ hnd' hlen' expire
    rw [putField_of_notMem hmem]
    exact hlp.appendPair hf hv
  | hashtable d =>
    obtain ⟨fields, isListpack, expire⟩ := o
    have hget := hr.get field
    obtain ⟨hnd, hlen, rfl, rfl : isListpack = false⟩ := hr
    have hmap : ∀ es : List (Bytes × Val), (putField field (.bytes value) es).map (fun e => (e.1, e.2.toBytes)) =
        putField field value (es.map fun e => (e.1, e.2.toBytes)) := by
      intro es
      induction es with
      | nil => rfl
      | cons e es ih =>
        obtain ⟨f, v⟩ := e
        by_cases hfe : f = field
        · simp [putField, hfe, Val.toBytes]
        · simp [putField, hfe, ih]
    refine ⟨?_, ?_⟩
    · simp only [Hash.put, SimpleDict.put, HashObj.put, ← hget, Option.isSome_map]
      rfl
    · simp only [Hash.put, SimpleDict.put, HashObj.put, HashObj.maybeConvertToHashtable]
      split
      · exact ⟨hnd', hlen', (hmap d.m).symm, rfl⟩
      · exact ⟨hnd', hlen', (hmap d.m).symm, rfl⟩

theorem putIfAbsent (hf : field.length < 2 ^ 63) (hv : value.length < 2 ^ 63) :
    (h.putIfAbsent t field (.bytes value)).2 = (o.putIfAbsent t field value).2 ∧
      (h.putIfAbsent t field (.bytes value)).1.Represents (o.putIfAbsent t field value).1 := by
  have heq : h.putIfAbsent t field (.bytes value) =
      if (o.get field).isSome then (h, 0) else h.put t field (.bytes value) := by
    cases h with
    | listpack lp => by_cases hsome : (o.get field).isSome <;> simp [Hash.putIfAbsent, Hash.put, hr.found field rfl, hsome]
    | hashtable d =>
      have hget : (d.get field).isSome = (o.get field).isSome := by
        rw [← hr.get field, Option.isSome_map]
        rfl
      by_cases hsome : (o.get field).isSome <;>
        simp [Hash.putIfAbsent, Hash.put, SimpleDict.putIfAbsent, SimpleDict.put, hget, hsome]
  rw [heq, HashObj.putIfAbsent]
  split
  · exact ⟨rfl, hr⟩
  · exact hr.put hf hv

theorem remove (field : Bytes) :
    (h.remove field).2.2 = (o.remove field).2 ∧ (h.remove field).2.1.Represents (o.remove field).1 := by
  have hget := hr.get field
  have hnd' : ((removeField field o.fields).map fst).Nodup := nodup_removeField hr.nodup
  have hlen' : ∀ e ∈ removeField field o.fields, e.1.length < 2 ^ 63 ∧ e.2.length < 2 ^ 63 := fun e he =>
    hr.lengths e (mem_of_mem_filter he)
  cases h with
  | listpack lp =>
    obtain ⟨hnd, hlen, hlp, hflag⟩ := hr
    have hfuel : o.fields.length ≤ 0 + lp.len := by rw [hlp.len, length_pairs]; omega
    have hnil : Listpack.new.Holds (pairs []) := Listpack.holds_new
    have hloop := removeLoop_eq field hlp hfuel hnil false
    simp only [Nat.mul_zero, drop_zero, nil_append, Bool.false_or] at hloop
    by_cases hmem : field ∈ o.fields.map fst
    · simp only [Hash.remove, hloop.2, hmem, decide_true, if_true, HashObj.remove, HashObj.get, isSome_lookup_eq, true_and]
      exact ⟨hnd', hlen', hloop.1, hflag⟩
    have hself : removeField field o.fields = o.fields := by
      rw [removeField, filter_eq_self]
      exact fun e he => decide_eq_true fun heq => hmem (heq ▸ mem_map_of_mem he)
    simp only [Hash.remove, hloop.2, hmem, decide_false, if_false, Bool.false_eq_true, HashObj.remove,
      HashObj.get, isSome_lookup_eq, hself, true_and]
    exact ⟨hnd, hlen, hlp, hflag⟩
  | hashtable d =>
    obtain ⟨hnd, hlen, hfields, hflag⟩ := hr
    refine ⟨?_, hnd', hlen', ?_, hflag⟩
    · simp only [Hash.remove, SimpleDict.remove, HashObj.remove, ← hget, Option.isSome_map]
      rfl
    · simp only [HashObj.remove, hfields, removeField, filter_map]
      rfl

end

end Represents

end Hash

/-! ## Hashes and finite maps -/

section fields

variable {es : List (Bytes × Bytes)} {m : Finmap fun _ : Bytes => Bytes} {field value : Bytes}

theorem represents_iff : Hayakv.Represents es m ↔ (es.map fst).Nodup ∧ ∀ k, es.lookup k = m.lookup k := by
  refine ⟨fun h => ⟨h.nodup, fun k => Option.ext fun v => ?_⟩, fun h => ⟨h.1, fun k v => ?_⟩⟩
  · rw [Chained.lookup_eq_some_iff_mem h.nodup, h.mem]
  · rw [← Chained.lookup_eq_some_iff_mem h.1, h.2]

theorem represents_putField (h : Hayakv.Represents es m) :
    Hayakv.Represents (putField field value es) (m.insert field value) := by
  obtain ⟨hnd, hlookup⟩ := represents_iff.1 h
  refine represents_iff.2 ⟨nodup_putField hnd, fun k => ?_⟩
  rw [lookup_putField]
  by_cases hk : k = field
  · rw [if_pos hk, hk, Finmap.lookup_insert]
  · rw [if_neg hk, Finmap.lookup_insert_of_ne _ hk, hlookup]

theorem represents_removeField (h : Hayakv.Represents es m) :
    Hayakv.Represents (removeField field es) (m.erase field) := by
  obtain ⟨hnd, hlookup⟩ := represents_iff.1 h
  refine represents_iff.2 ⟨nodup_removeField hnd, fun k => ?_⟩
  rw [lookup_removeField]
  by_cases hk : k = field
  · rw [if_pos hk, hk, Finmap.lookup_erase]
  · rw [if_neg hk, Finmap.lookup_erase_ne hk, hlookup]

end fields

/-- A call on a hash. Those that write read the thresholds afresh. -/
inductive HashOp
  | put (t : EncodingThresholds) (field value : GoString)
  | putIfAbsent (t : EncodingThresholds) (field value : GoString)
  | get (field : GoString)
  | remove (field : GoString)
  | len

inductive HashResp
  | count (n : Nat)
  | value (v : Option Bytes)
deriving DecidableEq, Repr

def hashMachine : Machine Hash HashOp HashResp where
  step
    | h, .put t f v => ((h.put t f (.bytes v)).1, .count (h.put t f (.bytes v)).2)
    | h, .putIfAbsent t f v => ((h.putIfAbsent t f (.bytes v)).1, .count (h.putIfAbsent t f (.bytes v)).2)
    | h, .get f => (h, .value ((h.get f).map Val.toBytes))
    | h, .remove f => ((h.remove f).2.1, .count (h.remove f).2.2)
    | h, .len => (h, .count h.len)

def finmapMachine : Machine (Finmap fun _ : Bytes => Bytes) HashOp HashResp where
  step
    | m, .put _ f v => (m.insert f.1 v.1, .count (if f.1 ∈ m then 0 else 1))
    | m, .putIfAbsent _ f v => if f.1 ∈ m then (m, .count 0) else (m.insert f.1 v.1, .count 1)
    | m, .get f => (m, .value (m.lookup f.1))
    | m, .remove f => (m.erase f.1, .count (if f.1 ∈ m then 1 else 0))
    | m, .len => (m, .count m.keys.card)

def HashRefines (h : Hash) (m : Finmap fun _ : Bytes => Bytes) : Prop :=
  ∃ o, h.Represents o ∧ Hayakv.Represents o.fields m

namespace HashRefines

theorem fields_put (o : HashObj) (t : EncodingThresholds) (field value : Bytes) :
    (o.put t field value).1.fields = putField field value o.fields := by
  unfold put maybeConvertToHashtable
  dsimp only
  split <;> rfl

theorem isSome_get {o : HashObj} {m : Finmap fun _ : Bytes => Bytes} (h : Hayakv.Represents o.fields m)
    (field : Bytes) : (o.get field).isSome = decide (field ∈ m) := by
  simp only [HashObj.get, isSome_lookup_eq, h.mem_keys]

theorem step : Machine.Simulates HashRefines hashMachine finmapMachine := by
  rintro h m op ⟨o, hr, hm⟩
  cases op with
  | put t f v =>
    obtain ⟨hcount, hput⟩ := hr.put (t := t) f.2 v.2
    refine ⟨?_, _, hput, fields_put o t f.1 v.1 ▸ represents_putField hm⟩
    simp [hashMachine, finmapMachine, hcount, put, isSome_get hm]
  | putIfAbsent t f v =>
    obtain ⟨hcount, hput⟩ := hr.putIfAbsent (t := t) f.2 v.2
    by_cases hmem : f.1 ∈ m
    · simp only [hashMachine, finmapMachine, if_pos hmem]
      rw [putIfAbsent, isSome_get hm, decide_eq_true hmem] at hcount hput
      exact ⟨by rw [hcount]; rfl, o, hput, hm⟩
    simp only [hashMachine, finmapMachine, if_neg hmem]
    rw [putIfAbsent, isSome_get hm, decide_eq_false hmem] at hcount hput
    refine ⟨?_, _, hput, fields_put o t f.1 v.1 ▸ represents_putField hm⟩
    simp [hcount, HashObj.put, isSome_get hm, hmem]
  | get f =>
    refine ⟨?_, o, hr, hm⟩
    simp [hashMachine, finmapMachine, hr.get, HashObj.get, (represents_iff.1 hm).2]
  | remove f =>
    obtain ⟨hcount, hrem⟩ := hr.remove f.1
    refine ⟨?_, _, hrem, represents_removeField hm⟩
    simp [hashMachine, finmapMachine, hcount, remove, isSome_get hm]
  | len =>
    refine ⟨?_, o, hr, hm⟩
    simp [hashMachine, finmapMachine, hr.len, len, hm.length_eq]

theorem new : HashRefines Hash.new ∅ := ⟨_, Hash.Represents.new, .nil⟩

end HashRefines

/-- `Hash` refines a finite map from fields to values. Whatever calls are made on a new hash, with
whatever thresholds, every answer is the finite map's; then `Len` is its size, and `ForEach` goes
through its fields with their values, each once. -/
theorem hash_refines_finmap (ops : List HashOp) : let (h, resps) := hashMachine.run Hash.new ops
    let (m, resps') := finmapMachine.run ∅ ops
    resps = resps' ∧ h.len = m.keys.card ∧
      ∀ o : MapOrder, ∃ visits : List (Bytes × Val), (visits.map fst).Nodup ∧
        (∀ f v, (f, v) ∈ visits.map (fun e => (e.1, e.2.toBytes)) ↔ m.lookup f = some v) ∧
        ∀ (σ : Type) (fn : σ → Bytes → Val → σ × Bool) (a : σ),
          h.forEach o fn a = visit (fun a (e : Bytes × Val) => fn a e.1 e.2) a visits := by
  obtain ⟨hresp, o, hr, hm⟩ := Machine.run_simulates HashRefines.step HashRefines.new ops
  refine ⟨hresp, ?_, fun ord => ?_⟩
  · rw [hr.len, HashObj.len, hm.length_eq]
  · obtain ⟨visits, hperm, hvisit⟩ := hr.forEach ord
    refine ⟨visits, ?_, fun f v => ?_, fun σ fn a => hvisit fn a⟩
    · have hkeys := (hperm.map fst).nodup_iff.2 hm.nodup
      simpa [Function.comp_def] using hkeys
    · rw [hperm.mem_iff, hm.mem]

end Hayakv.Object
