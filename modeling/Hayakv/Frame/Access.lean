import Hayakv.Engine.Rules

/-!
# How commands access keys

The discipline that commands keep to: they change no key but those of a given set, and they look at
the expiry of a key (`GetEntity`) before they use what the maps hold for it. The ghost state records
what is known at each point of a command:

* `known`: the key's expiry has been dealt with, so that an expired key is gone;
* `stale`: the key has got a new value without that, and so may still have the expiry of an old one;
* `apart`: no integer object is shared between a key of the set and another key;
* `loose`: a key of the set may hold a slice of a key outside;
* `foreign`: the slice worked on may be one of a key outside the set.

`absent` are keys that are known not to be there.
-/

namespace Hayakv.Frame

open Engine

/-- The keys that a command may change, keys that are not there, and whether it may list the keys. -/
structure Scope where
  writes : Key → Prop
  absent : Key → Prop
  scan : Prop

structure Access where
  known : Key → Prop
  stale : Key → Prop
  apart : Prop
  loose : Prop
  foreign : Prop

namespace Access

/-- The key's expiry has been dealt with. -/
def check (g : Access) (key : Key) : Access :=
  { g with
    known := fun k => k = key ∨ g.known k
    stale := fun k => g.stale k ∧ k ≠ key }

def put (g : Access) (key : Key) : Access := { g with stale := fun k => g.stale k ∨ (k = key ∧ ¬g.known k) }

/-- Nothing is left open. -/
def Done (g : Access) : Prop := ∀ k, ¬g.stale k

/-- Where a command starts; the slice worked on is one of an earlier command. -/
def start (known : Key → Prop) (apart : Prop) : Access := ⟨known, fun _ => False, apart, False, True⟩

section

variable {g : Access} {key k : Key} {known : Key → Prop} {apart : Prop}

@[simp] theorem check_known : (g.check key).known k ↔ k = key ∨ g.known k := Iff.rfl
@[simp] theorem check_stale : (g.check key).stale k ↔ g.stale k ∧ k ≠ key := Iff.rfl
@[simp] theorem check_apart : (g.check key).apart ↔ g.apart := Iff.rfl
@[simp] theorem check_loose : (g.check key).loose ↔ g.loose := Iff.rfl
@[simp] theorem put_known : (g.put key).known k ↔ g.known k := Iff.rfl
@[simp] theorem put_stale : (g.put key).stale k ↔ g.stale k ∨ (k = key ∧ ¬g.known k) := Iff.rfl
@[simp] theorem put_apart : (g.put key).apart ↔ g.apart := Iff.rfl
@[simp] theorem put_foreign : (g.put key).foreign ↔ g.foreign := Iff.rfl
@[simp] theorem start_known : (start known apart).known k ↔ known k := Iff.rfl
@[simp] theorem start_stale : (start known apart).stale k ↔ False := Iff.rfl
@[simp] theorem start_apart : (start known apart).apart ↔ apart := Iff.rfl
@[simp] theorem start_loose : (start known apart).loose ↔ False := Iff.rfl

end

/-- At least as much is known in `g'`, and no more is left open. -/
structure Le (g g' : Access) : Prop where
  known : ∀ k, g.known k → g'.known k
  stale : ∀ k, g'.stale k → g.stale k
  settled : ∀ k, g.stale k → g'.known k ∨ g'.stale k
  apart : g.apart → g'.apart
  loose : g'.loose → g.loose
  foreign : g'.foreign → g.foreign

theorem Le.refl (g : Access) : Le g g := ⟨fun _ => id, fun _ => id, fun _ => Or.inr, id, id, id⟩

theorem Le.trans {g g' g'' : Access} (h : Le g g') (h' : Le g' g'') : Le g g'' where
  known k hk := h'.known k (h.known k hk)
  stale k hk := h.stale k (h'.stale k hk)
  settled k hk := (h.settled k hk).elim (fun hk => Or.inl (h'.known k hk)) (h'.settled k)
  apart ha := h'.apart (h.apart ha)
  loose hl := h.loose (h'.loose hl)
  foreign hf := h.foreign (h'.foreign hf)

theorem Le.done {g g' : Access} (h : Le g g') (hd : g.Done) : g'.Done := fun k hk => hd k (h.stale k hk)

theorem Le.check {g g' : Access} (h : Le g g') (key : Key) : Le (g.check key) (g'.check key) :=
  { h with
    known := fun k hk => hk.imp id (h.known k)
    stale := fun k hk => ⟨h.stale k hk.1, hk.2⟩
    settled := fun k hk => (h.settled k hk.1).imp Or.inr fun hs => ⟨hs, hk.2⟩ }

theorem Le.put {g g' : Access} (h : Le g g') (key : Key) : Le (g.put key) (g'.put key) := by
  refine { h with stale := fun k hk => ?_, settled := fun k hk => ?_ }
  · exact hk.imp (h.stale k) fun ⟨he, hn⟩ => ⟨he, fun hg => hn (h.known k hg)⟩
  · by_cases hg : g'.known k
    · exact Or.inl hg
    · exact Or.inr (hk.imp (fun hs => (h.settled k hs).resolve_left hg) fun ⟨he, _⟩ => ⟨he, hg⟩)

theorem le_check (g : Access) (key : Key) : Le g (g.check key) := by
  refine { Le.refl g with known := fun _ => Or.inr, stale := fun _ => And.left, settled := fun k hk => ?_ }
  by_cases he : k = key
  · exact Or.inl (Or.inl he)
  · exact Or.inr ⟨hk, he⟩

variable {g : Access}

theorem le_put {key : Key} (hk : g.known key) : Le g (g.put key) :=
  { Le.refl g with
    stale := fun _ hs => hs.resolve_right fun ⟨he, hn⟩ => hn (he ▸ hk)
    settled := fun _ hs => Or.inr (Or.inl hs) }

theorem start_le {known : Key → Prop} (hk : ∀ k, known k → g.known k) (hd : g.Done) (hl : ¬g.loose) :
    Le (start known False) g where
  known := hk
  stale k hs := hd k hs
  settled _ := False.elim
  apart := False.elim
  loose := hl
  foreign _ := trivial

/-- What is known, but for what a new string may change: integers need not be apart. -/
def strings (g : Access) : Access := { g with apart := False, loose := True }

@[simp] theorem strings_known {k : Key} : g.strings.known k ↔ g.known k := Iff.rfl
@[simp] theorem strings_stale {k : Key} : g.strings.stale k ↔ g.stale k := Iff.rfl

@[simp] theorem strings_done : g.strings.Done ↔ g.Done := Iff.rfl

@[simp] theorem start_done {known : Key → Prop} {apart : Prop} : (start known apart).Done := fun _ => id

theorem strings_le (g : Access) : Le g.strings g := { Le.refl g with apart := False.elim, loose := fun _ => trivial }

theorem strings_le_putStr {key : Key} (hk : g.known key) : Le g.strings (g.put key).strings :=
  { le_put hk with apart := id, loose := id }

end Access

namespace Scope

variable (S : Scope)

/-- The operations that a command may perform. -/
def ok (g : Access) : Op → Prop
  | .getEntity key => ¬g.stale key
  | .getTTL key | .rawExists key | .isExpired key => g.known key
  | .load _ | .readHeld _ | .readBuf | .version _ | .rand | .purge _ | .openBuf _ => True
  | .freshBuf _ | .cutBuf _ | .addAof _ => True
  | .keys => S.scan
  | .store key _ | .putColl key _ | .putStr key .. | .putBuf key => S.writes key
  | .putIfAbsent key .. | .putIfExists key .. => S.writes key ∧ g.known key
  | .putFrom dest src => S.writes dest ∧ S.writes src
  | .editBuf .. => ¬g.foreign
  | .assignBuf key => S.writes key ∧ ¬g.foreign ∧ g.apart
  | .remove key => S.writes key ∨ S.absent key
  | .expire key _ | .persist key => S.writes key ∧ (g.known key ∨ g.stale key)

def ans (_ : Access) : (o : Op) → Op.Ret o → Prop
  | .getEntity key, r => S.absent key → r = none
  | _, _ => True

def next (g : Access) : (o : Op) → Op.Ret o → Access
  | .getEntity key, _ | .isExpired key, _ | .remove key, _ | .expire key _, _ | .persist key, _ =>
    g.check key
  | .putColl key _, _ => g.put key
  | .putStr key .., _ => (g.put key).strings
  | .putIfAbsent .., _ | .putIfExists .., _ => g.strings
  | .putFrom dest _, _ => g.put dest
  | .openBuf key, _ => { g with foreign := ¬S.writes key ∨ g.loose }
  | .freshBuf _, _ => { g with foreign := False }
  | .putBuf key, _ => { g.put key with loose := g.loose ∨ g.foreign }
  | _, _ => g

def discipline : Prog.Discipline Op Op.Ret Exit Access := ⟨S.ok, S.ans, S.next, fun g _ => g.Done⟩

/-- A command keeps to the discipline and leaves nothing open. -/
def Keeps (known : Key → Prop) (apart : Prop) {α : Type} (p : Exec α) : Prop :=
  p.wp S.discipline (fun _ g => g.Done) (.start known apart)

variable {S}

variable {g g' : Access}

theorem ok_mono (h : g.Le g') {o : Op} (hok : S.ok g o) : S.ok g' o := by
  have hf : ¬g.foreign → ¬g'.foreign := fun hn hf => hn (h.foreign hf)
  cases o with
  | getEntity key => exact fun hs => hok (h.stale _ hs)
  | getTTL key | rawExists key | isExpired key => exact h.known _ hok
  | load | readHeld | readBuf | version | rand | purge | openBuf | freshBuf | cutBuf |
    addAof => trivial
  | keys | store | putColl | putStr | putBuf | putFrom | remove => exact hok
  | putIfAbsent key | putIfExists key => exact ⟨hok.1, h.known _ hok.2⟩
  | editBuf => exact hf hok
  | assignBuf => exact ⟨hok.1, hf hok.2.1, h.apart hok.2.2⟩
  | expire key | persist key =>
    exact ⟨hok.1, hok.2.elim (fun hk => Or.inl (h.known _ hk)) (h.settled _)⟩

theorem next_mono (h : g.Le g') (o : Op) (r : Op.Ret o) : (S.next g o r).Le (S.next g' o r) := by
  cases o with
  | getEntity key | isExpired key | remove key | expire key | persist key => exact h.check key
  | putColl key | putFrom key => exact h.put key
  | putStr key => exact { h.put key with apart := id, loose := id }
  | putIfAbsent | putIfExists => exact { h with apart := id, loose := id }
  | openBuf => exact { h with foreign := Or.imp_right h.loose }
  | freshBuf => exact { h with foreign := id }
  | putBuf key => exact { h.put key with loose := Or.imp h.loose h.foreign }
  | getTTL | rawExists | load | store | purge | readHeld | cutBuf | editBuf | readBuf | assignBuf |
    addAof | keys | version | rand => exact h

theorem wp_of_le {α : Type} {p : Exec α} {Q Q' : α → Access → Prop} (h : g.Le g')
    (hQ : ∀ a g g', g.Le g' → Q a g → Q' a g') (hp : p.wp S.discipline Q g) : p.wp S.discipline Q' g' := by
  induction p generalizing g g' with
  | pure a => exact hQ a g g' h hp
  | exit e => exact h.done hp
  | op o k ih => exact ⟨ok_mono h hp.1, fun r hr => ih r (next_mono h o r) (hp.2 r hr)⟩

theorem Keeps.of_false {α : Type} {known : Key → Prop} {apart : Prop} {p : Exec α}
    (h : S.Keeps known False p) : S.Keeps known apart p :=
  wp_of_le (Access.start_le (fun _ => id) Access.start_done id) (fun _ _ _ h hd => h.done hd) h

theorem wp_bind_le {α β : Type} {p : Exec α} {f : α → Exec β} {Q : β → Access → Prop} {base : Access}
    (hQ : ∀ b g g', g.Le g' → Q b g → Q b g')
    (hp : p.wp S.discipline (fun _ g => base.Le g) base) (hf : ∀ a, (f a).wp S.discipline Q base) :
    (p >>= f).wp S.discipline Q base :=
  Prog.wp_seq hp fun a _ hg => wp_of_le hg hQ (hf a)

theorem wp_fold_le {α β : Type} {xs : List β} {a : α} {f : α → β → Exec α} {Q : α → Access → Prop}
    {base g : Access} (hg : base.Le g) (hbody : ∀ a, ∀ x ∈ xs, (f a x).wp S.discipline (fun _ g => base.Le g) base)
    (hQ : ∀ a g, base.Le g → Q a g) : (Prog.fold xs a f).wp S.discipline Q g := by
  refine Prog.wp_fold (fun ys _ g => (∀ y ∈ ys, y ∈ xs) ∧ base.Le g) ⟨fun _ => id, hg⟩ ?_ fun a g h => hQ a g h.2
  intro x ys a g ⟨hys, hle⟩
  refine wp_of_le hle (fun _ g g' h h' => ⟨fun y hy => hys y (List.mem_cons_of_mem x hy), h'.trans h⟩)
    (hbody a x (hys x List.mem_cons_self))

end Scope

theorem done_mono {α : Type} (_ : α) (g g' : Access) (h : g.Le g') (hd : g.Done) : g'.Done := h.done hd

/-- A part that takes nothing back, in a command that leaves nothing open. -/
theorem wp_then {S : Scope} {α β : Type} {p : Exec α} {f : α → Exec β} {base : Access}
    (hp : p.wp S.discipline (fun _ g => base.Le g) base) (hf : ∀ a, (f a).wp S.discipline (fun _ g => g.Done) base) :
    (p >>= f).wp S.discipline (fun _ g => g.Done) base :=
  Scope.wp_bind_le done_mono hp hf

theorem le_mono {α : Type} {base : Access} (_ : α) (g g' : Access) (h : g.Le g') (hd : base.Le g) :
    base.Le g' := hd.trans h

end Hayakv.Frame
