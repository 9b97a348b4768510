import Hayakv.Engine.Object
import Hayakv.Lib.Visit

/-!
# Simple dicts

`internal/datastruct/dict/simple.go`: a Go map. It is a list of entries with distinct keys, in the
order in which they came; a loop over the map goes through them in any order (`MapOrder`).
-/

namespace Hayakv.Object

open Engine List Prod

structure MapOrder where
  order : {V : Type} → List (Bytes × V) → List (Bytes × V)
  perm : ∀ {V : Type} (es : List (Bytes × V)), (order es).Perm es

section entries

variable {κ V : Type} [DecidableEq κ] {key : κ} {val : V} {es : List (κ × V)}

theorem keys_putField : (putField key val es).map fst =
    if key ∈ es.map fst then es.map fst else es.map fst ++ [key] := by
  induction es with
  | nil => rfl
  | cons e es ih =>
    obtain ⟨k, v⟩ := e
    by_cases hk : k = key
    · simp [putField, hk]
    · grind [putField]

theorem putField_of_notMem (h : key ∉ es.map fst) : putField key val es = es ++ [(key, val)] := by
  induction es with
  | nil => rfl
  | cons e es ih =>
    obtain ⟨hne, hnot⟩ := not_or.1 (mem_cons.not.1 h)
    simp [putField, Ne.symm hne, ih hnot]

theorem nodup_putField (h : (es.map fst).Nodup) : ((putField key val es).map fst).Nodup := by
  rw [keys_putField]
  split
  · exact h
  · rename_i hk
    refine nodup_append.2 ⟨h, by simp, fun a ha b hb => ?_⟩
    obtain rfl := mem_singleton.1 hb
    exact fun hab => hk (hab ▸ ha)

theorem keys_removeField : (removeField key es).map fst = (es.map fst).filter (· ≠ key) := by
  simp [removeField, filter_map, Function.comp_def]

theorem nodup_removeField (h : (es.map fst).Nodup) : ((removeField key es).map fst).Nodup := by
  rw [keys_removeField]
  exact h.filter _

theorem isSome_lookup [BEq κ] [LawfulBEq κ] : (es.lookup key).isSome ↔ key ∈ es.map fst := by
  grind [lookup_isSome_iff]

theorem isSome_lookup_eq [BEq κ] [LawfulBEq κ] : (es.lookup key).isSome = decide (key ∈ es.map fst) := by
  rw [Bool.eq_iff_iff, decide_eq_true_eq, isSome_lookup]

end entries

structure SimpleDict (V : Type) where
  m : List (Bytes × V)
  nodup : (m.map fst).Nodup

namespace SimpleDict

variable {V : Type}

def makeSimple : SimpleDict V := ⟨[], List.nodup_nil⟩

variable (d : SimpleDict V)

def get (key : Bytes) : Option V := d.m.lookup key

def len : Nat := d.m.length

/-- `Put`, with the number of keys added. -/
def put (key : Bytes) (val : V) : SimpleDict V × Nat :=
  (⟨putField key val d.m, nodup_putField d.nodup⟩, if (d.get key).isSome then 0 else 1)

def putIfAbsent (key : Bytes) (val : V) : SimpleDict V × Nat :=
  if (d.get key).isSome then (d, 0) else (⟨putField key val d.m, nodup_putField d.nodup⟩, 1)

/-- `Remove`: the value, the dict without the key, and the number of keys removed. -/
def remove (key : Bytes) : Option V × SimpleDict V × Nat :=
  (d.get key, ⟨removeField key d.m, nodup_removeField d.nodup⟩, if (d.get key).isSome then 1 else 0)

def forEach {σ : Type} (o : MapOrder) (d : SimpleDict V) (fn : σ → Bytes → V → σ × Bool) (s : σ) : σ :=
  visit (fun s (e : Bytes × V) => fn s e.1 e.2) s (o.order d.m)

theorem foldl_put {es : List (Bytes × V)} (hnd : (es.map fst).Nodup) :
    (es.foldl (fun d e => (d.put e.1 e.2).1) makeSimple).m = es := by
  have hgen : ∀ (es : List (Bytes × V)) (d : SimpleDict V), ((d.m ++ es).map fst).Nodup →
      (es.foldl (fun d e => (d.put e.1 e.2).1) d).m = d.m ++ es := by
    intro es
    induction es with
    | nil => simp
    | cons e es ih =>
      intro d hd
      have hput : (d.put e.1 e.2).1.m = d.m ++ [e] := by
        have hnot : e.1 ∉ d.m.map fst := by
          rw [map_append, map_cons, nodup_append] at hd
          exact fun hmem => hd.2.2 _ hmem _ mem_cons_self rfl
        exact putField_of_notMem hnot
      rw [foldl_cons, ih _ (by rw [hput]; simpa using hd), hput, append_assoc]
      rfl
  simpa [makeSimple] using hgen es makeSimple (by simpa [makeSimple] using hnd)

end SimpleDict

end Hayakv.Object
