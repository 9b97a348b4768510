import Mathlib.Data.Set.Finite.Lemmas

/-!
# Clients that take reader/writer locks in ascending order

A client is a list of actions: it acquires a lock to read or to write, or releases it. The locks are Go's
`sync.RWMutex`: a writer first takes an inner mutex, then announces itself, which keeps new readers out, and
then waits for the readers that are in. `run` lets the clients move in any order.

`Ordered` is the discipline: a lock is acquired only above all those that the client holds, and released
once, in the mode in which it was acquired. Clients that follow it never wait for each other in a circle
(`exists_step`), never release what they do not hold (`holds_of_release`), and leave every lock free
(`free_of_finished`).
-/

namespace Hayakv.LockOrder

open List Function Option

inductive Mode
  | read
  | write
deriving DecidableEq

inductive Action (L : Type*)
  | acquire (l : L) (m : Mode)
  | release (l : L) (m : Mode)
deriving DecidableEq

/-- A `sync.RWMutex`. -/
structure RWMutex (ι : Type*) where
  /-- The client that has the inner mutex: the writer, or the one that will be next. -/
  writer : Option ι := none
  /-- New readers are kept out. -/
  announced : Bool := false
  readers : List ι := []

structure System (ι L : Type*) where
  locks : L → RWMutex ι
  rest : ι → List (Action L)

variable {ι L : Type*} [DecidableEq ι] [DecidableEq L]

namespace System

def setLock (s : System ι L) (l : L) (m : RWMutex ι) : System ι L := { s with locks := Function.update s.locks l m }

/-- Client `c` has done its next action. -/
def advance (s : System ι L) (c : ι) (as : List (Action L)) : System ι L :=
  { s with rest := Function.update s.rest c as }

/-- The next move of client `c`; `none` if it has to wait, if it has finished, and if it would release what
it does not hold. -/
def step (s : System ι L) (c : ι) : Option (System ι L) :=
  match s.rest c with
  | [] => none
  | .acquire l .read :: as =>
    let m := s.locks l
    if m.announced then none else some ((s.setLock l { m with readers := c :: m.readers }).advance c as)
  | .acquire l .write :: as =>
    let m := s.locks l
    match m.writer with
    | none => some (s.setLock l { m with writer := some c })
    | some c' =>
      if c' ≠ c then none
      else if !m.announced then some (s.setLock l { m with announced := true })
      else if m.readers = [] then some (s.advance c as)
      else none
  | .release l .read :: as =>
    let m := s.locks l
    if c ∈ m.readers then some ((s.setLock l { m with readers := m.readers.erase c }).advance c as) else none
  | .release l .write :: as =>
    let m := s.locks l
    if m.writer ≠ some c then none
    else if m.announced then some (s.setLock l { m with announced := false })
    else some ((s.setLock l { m with writer := none }).advance c as)

/-- The clients move in the order of a schedule; one that has to wait does nothing. -/
def run (s : System ι L) (schedule : List ι) : System ι L := schedule.foldl (fun s c => (s.step c).getD s) s

/-- All locks are free, and nothing has been done. -/
def start (progs : ι → List (Action L)) : System ι L := ⟨fun _ => {}, progs⟩

/-- Client `c` has the lock in this mode. -/
def Holds (s : System ι L) (c : ι) (l : L) : Mode → Prop
  | .read => c ∈ (s.locks l).readers
  | .write => (s.locks l).writer = some c

/-- The lock that the next action of client `c` acquires. -/
def target (s : System ι L) (c : ι) : WithBot L :=
  match s.rest c with
  | .acquire l _ :: _ => l
  | _ => ⊥

end System

/-- What a client does when it holds these locks: it acquires locks above them only, releases what it holds,
and holds nothing at the end. -/
def Ordered [LT L] (held : List (L × Mode)) : List (Action L) → Prop
  | [] => held = []
  | .acquire l m :: as => (∀ h ∈ held, h.1 < l) ∧ Ordered ((l, m) :: held) as
  | .release l m :: as => (l, m) ∈ held ∧ Ordered (held.filter (· ≠ (l, m))) as

variable [LinearOrder L]

omit [DecidableEq ι] in
/-- Locks that are acquired in ascending order and released in the opposite one. -/
theorem Ordered.brackets (ps : List (L × Mode)) (mid : List (Action L)) {held : List (L × Mode)}
    {rest : List (Action L)} (hasc : ps.Pairwise fun p q => p.1 < q.1) (habove : ∀ h ∈ held, ∀ p ∈ ps, h.1 < p.1)
    (hmid : ∀ rest, Ordered (ps.reverse ++ held) rest → Ordered (ps.reverse ++ held) (mid ++ rest))
    (hrest : Ordered held rest) :
    Ordered held (ps.map (fun p => .acquire p.1 p.2) ++ mid ++ ps.reverse.map (fun p => .release p.1 p.2) ++
      rest) := by
  induction ps generalizing held rest with
  | nil => simpa using hmid rest (by simpa using hrest)
  | cons p ps ih =>
    obtain ⟨hp, hasc⟩ := pairwise_cons.1 hasc
    have hnot : p ∉ held := fun hmem => lt_irrefl _ (habove p hmem p mem_cons_self)
    have hfilter : (p :: held).filter (· ≠ p) = held := by
      rw [filter_cons_of_neg (by simp), filter_eq_self]
      exact fun q hq => decide_eq_true fun heq => hnot (heq ▸ hq)
    have hinner := @ih (p :: held) (.release p.1 p.2 :: rest) hasc
      (fun h hh q hq => ?_) (by simpa using hmid) ⟨mem_cons_self, by rw [hfilter]; exact hrest⟩
    · refine ⟨fun h hh => habove h hh p mem_cons_self, ?_⟩
      simpa using hinner
    · rcases mem_cons.1 hh with rfl | hh
      · exact hp q hq
      · exact habove h hh q (mem_cons_of_mem _ hq)

variable {s : System ι L} {c : ι} {l : L}

/-- The locks are held as the clients' actions so far say. -/
structure Inv (s : System ι L) (held : ι → List (L × Mode)) : Prop where
  ordered : ∀ c, Ordered (held c) (s.rest c)
  nodup : ∀ l, (s.locks l).readers.Nodup
  readers : ∀ l c, c ∈ (s.locks l).readers ↔ (l, .read) ∈ held c
  writer : ∀ l c, (s.locks l).writer = some c → (l, .write) ∈ held c ∨ ∃ as, s.rest c = .acquire l .write :: as
  held : ∀ l c, (l, .write) ∈ held c → (s.locks l).writer = some c
  announced : ∀ l, (s.locks l).announced → (s.locks l).writer ≠ none

omit [DecidableEq L] [LinearOrder L] in
theorem mem_update {held : ι → List (L × Mode)} {hc : List (L × Mode)} {x : L × Mode}
    (h : x ∈ hc ↔ x ∈ held c) (c' : ι) : x ∈ update held c hc c' ↔ x ∈ held c' := by
  rw [update_apply]
  grind

namespace Inv

variable {held : ι → List (L × Mode)}

omit [DecidableEq ι] in
theorem start {progs : ι → List (Action L)} (h : ∀ c, Ordered [] (progs c)) :
    Inv (System.start progs) fun _ => [] where
  ordered := h
  nodup _ := nodup_nil
  readers _ _ := ⟨fun h => (nomatch h), fun h => (nomatch h)⟩
  writer _ _ h := nomatch h
  held _ _ h := nomatch h
  announced _ h := nomatch h

/-- A move of client `c` at lock `l`: the lock is now `m`, and the client holds `hc` and goes on with `as`. -/
theorem move (h : Inv s held) (m : RWMutex ι) (hc : List (L × Mode)) (as : List (Action L))
    (hhead : ∀ l' as', s.rest c = .acquire l' .write :: as' → l' = l) (hord : Ordered hc as)
    (hother : ∀ l' mode, l' ≠ l → ((l', mode) ∈ hc ↔ (l', mode) ∈ held c)) (hnodup : m.readers.Nodup)
    (hreaders : ∀ c', c' ∈ m.readers ↔ (l, .read) ∈ update held c hc c')
    (hwriter : ∀ c', m.writer = some c' → (l, .write) ∈ update held c hc c' ∨
      ∃ as', update s.rest c as c' = .acquire l .write :: as')
    (hheld : ∀ c', (l, .write) ∈ update held c hc c' → m.writer = some c')
    (hann : m.announced → m.writer ≠ none) : Inv ((s.setLock l m).advance c as) (update held c hc) := by
  -- for the other locks nothing has changed
  have hmem : ∀ l' mode c', l' ≠ l → ((l', mode) ∈ update held c hc c' ↔ (l', mode) ∈ held c') :=
    fun l' mode c' hl' => mem_update (hother l' mode hl') c'
  have hlock : ∀ l', ((s.setLock l m).advance c as).locks l' = if l' = l then m else s.locks l' :=
    update_apply s.locks l m
  constructor
  case ordered =>
    intro c'
    have hc' := h.ordered c'
    simp only [System.advance, System.setLock, update_apply]
    grind
  case nodup =>
    intro l'
    have hl' := h.nodup l'
    grind
  case readers =>
    intro l' c'
    have hl' := h.readers l' c'
    grind
  case writer =>
    intro l' c' hw
    rw [hlock] at hw
    split at hw
    · exact ‹l' = l› ▸ hwriter c' hw
    rename_i hl'
    rw [hmem l' _ c' hl']
    refine (h.writer l' c' hw).imp id fun ⟨as', has'⟩ => ⟨as', ?_⟩
    have hc' : c' ≠ c := fun hc' => hl' (hhead l' as' (hc' ▸ has'))
    exact (update_of_ne hc' ..).trans has'
  case held =>
    intro l' c' hw
    have hl' := h.held l' c'
    grind
  case announced =>
    intro l'
    have hl' := h.announced l'
    grind

theorem prepare (h : Inv s held) {m : RWMutex ι} (hreaders : m.readers = (s.locks l).readers)
    (hhead : ∀ l' as', s.rest c = .acquire l' .write :: as' → l' = l)
    (hwriter : ∀ c', m.writer = some c' → (l, .write) ∈ held c' ∨ ∃ as', s.rest c' = .acquire l .write :: as')
    (hheld : ∀ c', (l, .write) ∈ held c' → m.writer = some c') (hann : m.announced → m.writer ≠ none) :
    Inv (s.setLock l m) held := by
  have hmove := h.move m (held c) (s.rest c) hhead (h.ordered c) (fun _ _ _ => Iff.rfl) (hreaders ▸ h.nodup l)
  have hsame : (s.setLock l m).advance c (s.rest c) = s.setLock l m := by
    rw [System.advance, System.setLock, update_eq_self]
  rw [hsame, update_eq_self, update_eq_self] at hmove
  refine hmove ?_ hwriter hheld hann
  intro c'
  rw [hreaders]
  exact h.readers l c'

variable {as : List (Action L)}

section

variable (h : Inv s held)
include h

omit [DecidableEq ι] in
theorem not_held {mode mode' : Mode} (hrest : s.rest c = .acquire l mode :: as) :
    (l, mode') ∉ held c := fun hmem => by
  have hord := h.ordered c
  rw [hrest] at hord
  exact lt_irrefl l (hord.1 _ hmem)

/-- A move that changes only who reads the lock, and only for the client that moves. -/
theorem move_reader {readers : List ι} {hc : List (L × Mode)} (hrest : ∀ l' as', s.rest c ≠ .acquire l' .write :: as')
    (hord : Ordered hc as) (hsame : ∀ p, p ≠ (l, Mode.read) → (p ∈ hc ↔ p ∈ held c)) (hnodup : readers.Nodup)
    (hself : c ∈ readers ↔ (l, .read) ∈ hc) (hother : ∀ c', c' ≠ c → (c' ∈ readers ↔ c' ∈ (s.locks l).readers)) :
    Inv ((s.setLock l { s.locks l with readers }).advance c as) (update held c hc) := by
  have hwrite := hsame (l, .write) (by simp)
  refine h.move _ _ _ (fun l' as' heq => absurd heq (hrest l' as')) hord (fun l' mode hl' => hsame _ (by simp [hl']))
    hnodup (fun c' => ?_) (fun c' hw => ?_) (fun c' hw => h.held l c' ((mem_update hwrite c').1 hw)) (h.announced l)
  · rw [update_apply]
    grind [h.readers l c']
  · rw [mem_update hwrite]
    refine (h.writer l c' hw).imp id fun ⟨as', has'⟩ => ⟨as', ?_⟩
    have hc' : c' ≠ c := fun hc' => hrest l as' (hc' ▸ has')
    exact (update_of_ne hc' ..).trans has'

theorem acquire_read (hrest : s.rest c = .acquire l .read :: as) :
    Inv ((s.setLock l { s.locks l with readers := c :: (s.locks l).readers }).advance c as)
      (update held c ((l, .read) :: held c)) := by
  have hord := h.ordered c
  rw [hrest] at hord
  refine h.move_reader (fun l' as' heq => ?_) hord.2 (fun p hp => by simp [hp]) ?_ (by simp) fun c' hc' => by simp [hc']
  · cases hrest.symm.trans heq
  · exact nodup_cons.2 ⟨fun hmem => h.not_held hrest ((h.readers l c).1 hmem), h.nodup l⟩

theorem acquire_write (hrest : s.rest c = .acquire l .write :: as) (hw : (s.locks l).writer = some c) :
    Inv (s.advance c as) (update held c ((l, .write) :: held c)) := by
  have hord := h.ordered c
  rw [hrest] at hord
  have hread : (l, Mode.read) ∈ (l, Mode.write) :: held c ↔ (l, Mode.read) ∈ held c := by simp
  have hmove := h.move (c := c) (l := l) (s.locks l) ((l, .write) :: held c) as (fun l' as' heq => ?_) hord.2
    (fun l' mode hl' => ?_) (h.nodup l) (fun c' => ?_) (fun c' hw' => ?_) (fun c' hmem => ?_) (h.announced l)
  · rwa [System.setLock, update_eq_self] at hmove
  · rw [hrest] at heq
    cases heq
    rfl
  · simp [hl']
  · rw [mem_update hread]
    exact h.readers l c'
  · obtain rfl : c = c' := some.inj (hw.symm.trans hw')
    rw [update_self]
    exact .inl mem_cons_self
  · rw [update_apply] at hmem
    grind [h.held l c']

theorem release_read (hrest : s.rest c = .release l .read :: as) :
    Inv ((s.setLock l { s.locks l with readers := (s.locks l).readers.erase c }).advance c as)
      (update held c ((held c).filter (· ≠ (l, .read)))) := by
  have hord := h.ordered c
  rw [hrest] at hord
  refine h.move_reader (fun l' as' heq => ?_) hord.2 (fun p hp => by simp [hp]) ((h.nodup l).erase c) ?_
    fun c' hc' => mem_erase_of_ne hc'
  · cases hrest.symm.trans heq
  · simp [(h.nodup l).mem_erase_iff]

theorem release_write (hrest : s.rest c = .release l .write :: as) (hann : (s.locks l).announced = false) :
    Inv ((s.setLock l { s.locks l with writer := none }).advance c as)
      (update held c ((held c).filter (· ≠ (l, .write)))) := by
  have hord := h.ordered c
  rw [hrest] at hord
  have hw := h.held l c hord.1
  have hread : (l, Mode.read) ∈ (held c).filter (· ≠ (l, .write)) ↔ (l, Mode.read) ∈ held c := by simp
  refine h.move _ _ _ (fun l' as' heq => ?_) hord.2 (fun l' mode hl' => ?_) (h.nodup l) (fun c' => ?_)
    (fun c' hw' => nomatch hw') (fun c' hmem => ?_) (fun hann' => ?_)
  · rw [hrest] at heq
    cases heq
  · simp [hl']
  · rw [mem_update hread]
    exact h.readers l c'
  · rw [update_apply] at hmem
    grind [h.held l c']
  · exact absurd (hann.symm.trans hann') Bool.false_ne_true

theorem step {t : System ι L} (hs : s.step c = some t) : ∃ held', Inv t held' := by
  rw [System.step] at hs
  split at hs
  · cases hs
  · rename_i l as hrest
    dsimp only at hs
    split at hs
    · cases hs
    · obtain rfl := some.inj hs
      exact ⟨_, h.acquire_read hrest⟩
  · rename_i l as hrest
    have hhead : ∀ l' as', s.rest c = .acquire l' .write :: as' → l' = l := fun l' as' heq => by
      rw [hrest] at heq
      cases heq
      rfl
    dsimp only at hs
    split at hs
    · -- the inner mutex
      rename_i hfree
      obtain rfl := some.inj hs
      refine ⟨held, h.prepare rfl hhead (fun c' hw => ?_) (fun c' hmem => ?_) fun _ => ?_⟩
      · obtain rfl := some.inj hw
        exact .inr ⟨as, hrest⟩
      · rw [h.held l c' hmem] at hfree
        cases hfree
      · exact some_ne_none c
    · rename_i c' hw
      split at hs
      · cases hs
      rename_i hc'
      obtain rfl := not_not.1 hc'
      split at hs
      · obtain rfl := some.inj hs
        exact ⟨held, h.prepare rfl hhead (h.writer l) (h.held l) fun _ => by rw [hw]; exact some_ne_none _⟩
      · split at hs
        · obtain rfl := some.inj hs
          exact ⟨_, h.acquire_write hrest hw⟩
        · cases hs
  · rename_i l as hrest
    dsimp only at hs
    split at hs
    · obtain rfl := some.inj hs
      exact ⟨_, h.release_read hrest⟩
    · cases hs
  · rename_i l as hrest
    have hhead : ∀ l' as', s.rest c = .acquire l' .write :: as' → l' = l := fun l' as' heq => by
      rw [hrest] at heq
      cases heq
    dsimp only at hs
    split at hs
    · cases hs
    split at hs
    · obtain rfl := some.inj hs
      exact ⟨held, h.prepare rfl hhead (h.writer l) (h.held l) fun hann => nomatch hann⟩
    · rename_i hann
      obtain rfl := some.inj hs
      exact ⟨_, h.release_write hrest (by simpa using hann)⟩

theorem run (schedule : List ι) : ∃ held', Inv (s.run schedule) held' := by
  induction schedule generalizing s held with
  | nil => exact ⟨held, h⟩
  | cons c schedule ih =>
    rw [System.run, foldl_cons]
    cases hs : s.step c with
    | none => exact ih h
    | some t =>
      obtain ⟨held', h'⟩ := h.step hs
      exact ih h'

end

/-! ## What the discipline gives -/

omit [DecidableEq ι] in
theorem holds_of_release (h : Inv s held) {mode : Mode} (hrest : s.rest c = .release l mode :: as) :
    s.Holds c l mode := by
  have hord := h.ordered c
  rw [hrest] at hord
  cases mode with
  | read => exact (h.readers l c).2 hord.1
  | write => exact h.held l c hord.1

theorem acquires_of_waits (h : Inv s held) (hrest : s.rest c ≠ []) (hwaits : s.step c = none) :
    ∃ l mode as, s.rest c = .acquire l mode :: as := by
  match hr : s.rest c with
  | [] => exact absurd hr hrest
  | .acquire l mode :: as => exact ⟨l, mode, as, rfl⟩
  | .release l .read :: as =>
    have hhold : c ∈ (s.locks l).readers := h.holds_of_release hr
    simp only [System.step, hr] at hwaits
    rw [if_pos hhold] at hwaits
    cases hwaits
  | .release l .write :: as =>
    have hhold : (s.locks l).writer = some c := h.holds_of_release hr
    simp only [System.step, hr, hhold] at hwaits
    cases hann : (s.locks l).announced <;> simp [hann] at hwaits

/-- A lock on which a client waits is held, unless some client can move. -/
theorem held_of_waits (h : Inv s held) (hall : ∀ c, s.rest c ≠ [] → s.step c = none) {mode : Mode}
    (hrest : s.rest c = .acquire l mode :: as) : ∃ c' mode', (l, mode') ∈ held c' := by
  -- a writer that waits for the readers waits for one that is in
  have hreader : ∀ {c' as'}, s.rest c' = .acquire l .write :: as' → (s.locks l).writer = some c' →
      ∃ c'' mode', (l, mode') ∈ held c'' := by
    intro c' as' hrest' hw
    have hstep := hall c' (by rw [hrest']; exact cons_ne_nil _ _)
    simp only [System.step, hrest', hw] at hstep
    cases hr : (s.locks l).readers with
    | nil =>
      rw [hr] at hstep
      cases hann : (s.locks l).announced <;> simp [hann] at hstep
    | cons c'' cs => exact ⟨c'', .read, (h.readers l c'').1 (by rw [hr]; exact mem_cons_self)⟩
  have hwriter : ∀ {c'}, (s.locks l).writer = some c' → ∃ c'' mode', (l, mode') ∈ held c'' := by
    intro c' hw
    rcases h.writer l c' hw with hmem | ⟨as', has'⟩
    · exact ⟨c', .write, hmem⟩
    · exact hreader has' hw
  have hstep := hall c (by rw [hrest]; exact cons_ne_nil _ _)
  cases mode with
  | read =>
    have hann : (s.locks l).announced = true := by
      by_contra hann
      simp only [System.step, hrest] at hstep
      rw [if_neg hann] at hstep
      cases hstep
    obtain ⟨c', hw⟩ := ne_none_iff_exists'.1 (h.announced l hann)
    exact hwriter hw
  | write =>
    cases hw : (s.locks l).writer with
    | none =>
      simp only [System.step, hrest, hw] at hstep
      cases hstep
    | some c' => exact hwriter hw

theorem exists_step [Finite ι] (h : Inv s held) (hc : s.rest c ≠ []) : ∃ c, (s.step c).isSome := by
  by_contra hnone
  have hall : ∀ c, s.rest c ≠ [] → s.step c = none := fun c _ =>
    not_isSome_iff_eq_none.1 fun hsome => hnone ⟨c, hsome⟩
  -- of the locks that are waited for, take the highest
  obtain ⟨c, hc, hmax⟩ := Set.exists_max_image {c | s.rest c ≠ []} s.target (Set.toFinite _) ⟨c, hc⟩
  obtain ⟨l, mode, as, hrest⟩ := h.acquires_of_waits hc (hall c hc)
  obtain ⟨c', mode', hmem⟩ := h.held_of_waits hall hrest
  have hc' : s.rest c' ≠ [] := fun hnil => by
    have hord := h.ordered c'
    rw [hnil] at hord
    rw [show held c' = [] from hord] at hmem
    cases hmem
  -- its holder waits for a higher one
  obtain ⟨l', mode'', as', hrest'⟩ := h.acquires_of_waits hc' (hall c' hc')
  have hord := h.ordered c'
  rw [hrest'] at hord
  have hlt : l < l' := hord.1 _ hmem
  have hle := hmax c' hc'
  simp only [System.target, hrest, hrest', WithBot.coe_le_coe] at hle
  exact lt_irrefl l (lt_of_lt_of_le hlt hle)

omit [DecidableEq ι] in
theorem free_of_finished (h : Inv s held) (hall : ∀ c, s.rest c = []) (l : L) : s.locks l = {} := by
  have hheld : ∀ c, held c = [] := fun c => by
    have hord := h.ordered c
    rw [hall c] at hord
    exact hord
  have hreaders : (s.locks l).readers = [] := eq_nil_iff_forall_not_mem.2 fun c hmem => by
    have := (h.readers l c).1 hmem
    rw [hheld c] at this
    cases this
  have hwriter : (s.locks l).writer = none := eq_none_iff_forall_ne_some.2 fun c hw => by
    rcases h.writer l c hw with hmem | ⟨as, has⟩
    · rw [hheld c] at hmem
      cases hmem
    · rw [hall c] at has
      cases has
  have hann : (s.locks l).announced = false := by
    by_contra hann
    exact h.announced l (by simpa using hann) hwriter
  rcases hm : s.locks l with ⟨w, a, r⟩
  simp_all

end Inv

end Hayakv.LockOrder
