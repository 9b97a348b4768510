import Hayakv.Conn.Connection
import Hayakv.Lib.Guarded

/-!
# Recycled connections

`NewConn` and `Close` of `internal/server/connection/conn.go` with the pool
between them: `connPool.Get` answers any object that was put and not taken since,
or a new one (`pick`). What a session can see of a new connection is `View`, which
is everything but the socket, the id, the time and the close handler.

A session may go on after its connection was closed: the commands behind a CLIENT KILL
of its own id in one read are executed on an object that is in the pool by then.

`Close` and `NewConn` together reset everything but the user and the seven fields
of CLIENT TRACKING (`Clean`), and `NewConn` alone leaves seven more (`AsNew`). So a new
connection is as new exactly when the object that it reuses is so, and it always is when
connections are clean at their end and not used after it (`newConn_view_iff`).
-/

namespace Hayakv.Conn

open List

structure View where
  user : Option User
  password : Bytes
  tracking : Bool
  trackingMode : Int
  noLoop : Bool
  redirectID : UInt64
  bcastMode : Bool
  bcastPrefixes : List Bytes
  cachingNext : Bool
  multi : Bool
  queue : List Resp.CmdLine
  watching : List (Bytes × UInt32)
  txErrors : List Bytes
  selectedDB : Int
  subs : List Bytes
  pSubs : List Bytes
  protocol : RespVersion
  slave : Bool
  master : Bool
  clientName : Bytes
  libName : Bytes
  libVer : Bytes
  replyMode : Int
deriving DecidableEq, Repr

namespace Connection

variable (c : Connection)

def view : View where
  user := c.user
  password := c.password
  tracking := c.tracking
  trackingMode := c.trackingMode
  noLoop := c.noLoop
  redirectID := c.redirectID
  bcastMode := c.bcastMode
  bcastPrefixes := c.bcastPrefixes
  cachingNext := c.cachingNext
  multi := c.multi
  queue := c.queue
  watching := c.watching
  txErrors := c.txErrors
  selectedDB := c.selectedDB
  subs := c.subs
  pSubs := c.pSubs
  protocol := c.protocol
  slave := c.slave
  master := c.master
  clientName := c.clientName
  libName := c.libName
  libVer := c.libVer
  replyMode := c.replyMode

/-- The fields that `Close` resets, on an open connection. -/
def close : Connection :=
  { c with
    closed := true, subs := [], pSubs := [], password := [], queue := [], watching := []
    txErrors := [], selectedDB := 0, clientName := [], libName := [], libVer := [], replyMode := 0 }

/-- The fields that `NewConn` sets on the object that it got. -/
def renew (socket : Nat) (id : UInt64) (now : Int) : Connection :=
  { c with
    conn := some socket, closed := false, onClose := false, slave := false, master := false
    multi := false, protocol := .resp2, id, createdAt := now, clientName := [], libName := []
    libVer := [], replyMode := 0 }

/-- Nothing of CLIENT TRACKING is set. -/
def Untracked : Prop :=
  c.tracking = false ∧ c.trackingMode = 0 ∧ c.noLoop = false ∧ c.redirectID = 0 ∧ c.bcastMode = false ∧
    c.bcastPrefixes = [] ∧ c.cachingNext = false

/-- Neither a user nor anything of CLIENT TRACKING is set. -/
def Clean : Prop := c.user = none ∧ c.Untracked

instance (c : Connection) : Decidable c.Clean := by unfold Clean Untracked; infer_instance

/-- All that `NewConn` does not set has its initial value. -/
def AsNew : Prop :=
  c.Clean ∧ c.subs = [] ∧ c.pSubs = [] ∧ c.password = [] ∧ c.queue = [] ∧ c.watching = [] ∧ c.txErrors = [] ∧
    c.selectedDB = 0

variable {c}

theorem Clean.close (h : c.Clean) : c.close.AsNew := ⟨h, rfl, rfl, rfl, rfl, rfl, rfl, rfl⟩

theorem view_renew_iff (socket : Nat) (id : UInt64) (now : Int) :
    (c.renew socket id now).view = view {} ↔ c.AsNew := by
  simp only [view, renew, AsNew, Clean, Untracked, View.mk.injEq]
  tauto

end Connection

structure Conns where
  objects : List Connection := []
  pool : List Nat := []
  nextClientID : UInt64 := 0
deriving DecidableEq

/-- What happens to connections; an object is its number. -/
inductive ConnEvent
  | newConn (socket : Nat) (now : Int) (pick : Option Nat)
  | call (o : Nat) (op : Op)
  | close (o : Nat)

namespace Conns

/-- The object that `connPool.Get` answers: the one picked if it is in the pool, else a new one,
and its number. -/
def get (s : Conns) (pick : Option Nat) : Nat × Connection :=
  match pick with
  | some o => if o ∈ s.pool then (o, s.objects.getD o {}) else (s.objects.length, {})
  | none => (s.objects.length, {})

/-- The connection that `NewConn` returns. -/
def newConn (s : Conns) (socket : Nat) (now : Int) (pick : Option Nat) : Connection :=
  (s.get pick).2.renew socket (s.nextClientID + 1) now

/-- The objects with `c` in place of, or behind, the others. -/
def put (s : Conns) (o : Nat) (c : Connection) : List Connection :=
  if o < s.objects.length then s.objects.set o c else s.objects ++ [c]

/-- One event. A call works on the object, closed or not; a second `Close` does nothing. -/
def step (s : Conns) : ConnEvent → Conns
  | .newConn socket now pick =>
    { objects := s.put (s.get pick).1 (s.newConn socket now pick)
      pool := s.pool.erase (s.get pick).1
      nextClientID := s.nextClientID + 1 }
  | .call o op =>
    match s.objects[o]? with
    | some c => { s with objects := s.objects.set o (c.call op) }
    | none => s
  | .close o =>
    match s.objects[o]? with
    | some c =>
      if c.closed then s else { s with objects := s.objects.set o c.close, pool := o :: s.pool }
    | none => s

/-- The condition on one event: a connection is clean when it is closed, and is not used after that. -/
def EndsClean (s : Conns) : ConnEvent → Prop
  | .newConn .. => True
  | .call o _ => ∀ c ∈ s.objects[o]?, c.closed = false
  | .close o => ∀ c ∈ s.objects[o]?, c.closed = false → c.Clean

instance (s : Conns) (e : ConnEvent) : Decidable (s.EndsClean e) := by
  cases e <;> unfold EndsClean <;> infer_instance

/-- The objects of the pool are closed and as new, and are in it once. -/
structure Inv (s : Conns) : Prop where
  nodup : s.pool.Nodup
  pooled : ∀ o ∈ s.pool, ∃ c, s.objects[o]? = some c ∧ c.closed = true ∧ c.AsNew

variable {s : Conns}

theorem Inv.get (h : s.Inv) (pick : Option Nat) : (s.get pick).2.AsNew := by
  have hnew : Connection.AsNew {} := ⟨by decide, rfl, rfl, rfl, rfl, rfl, rfl, rfl⟩
  cases pick with
  | none => exact hnew
  | some o =>
    rw [Conns.get]
    split
    · rename_i ho
      obtain ⟨c, hc, -, hc'⟩ := h.pooled o ho
      rwa [getD_eq_getElem?_getD, hc]
    · exact hnew

theorem getElem?_put_of_ne {o o' : Nat} {c c' : Connection} (h : o' ≠ o)
    (hc : s.objects[o']? = some c') : (s.put o c)[o']? = some c' := by
  rw [put]
  split
  · rw [getElem?_set_ne (Ne.symm h), hc]
  · have hlt : o' < s.objects.length := (List.getElem?_eq_some_iff.1 hc).1
    rw [getElem?_append_left hlt, hc]

/-- An open object is not in the pool, so that what is done to it does not matter there. -/
theorem Inv.set (h : s.Inv) {o : Nat} {c : Connection} (hc : s.objects[o]? = some c)
    (hopen : c.closed = false) (c' : Connection) : o ∉ s.pool ∧ Inv { s with objects := s.objects.set o c' } := by
  have hnot : o ∉ s.pool := fun ho => by
    obtain ⟨c₀, hc₀, hclosed, -⟩ := h.pooled o ho
    cases hc.symm.trans hc₀
    rw [hopen] at hclosed
    cases hclosed
  refine ⟨hnot, h.nodup, fun o' ho' => ?_⟩
  have hne : o ≠ o' := fun heq => hnot (heq ▸ ho')
  rw [getElem?_set_ne hne]
  exact h.pooled o' ho'

theorem Inv.step (h : s.Inv) (e : ConnEvent) (hends : s.EndsClean e) : (s.step e).Inv := by
  cases e with
  | newConn socket now pick =>
    refine ⟨h.nodup.erase _, fun o ho => ?_⟩
    have hmem := h.nodup.mem_erase_iff.1 ho
    obtain ⟨c, hc, hpooled⟩ := h.pooled o hmem.2
    exact ⟨c, getElem?_put_of_ne hmem.1 hc, hpooled⟩
  | call o op =>
    rw [Conns.step]
    split
    · rename_i c hc
      exact (h.set hc (hends c hc) _).2
    · exact h
  | close o =>
    rw [Conns.step]
    split
    · rename_i c hc
      split
      · exact h
      rename_i hopen
      have hopen : c.closed = false := by simpa using hopen
      obtain ⟨hnot, hset⟩ := h.set hc hopen c.close
      have hlt : o < s.objects.length := (List.getElem?_eq_some_iff.1 hc).1
      refine ⟨nodup_cons.2 ⟨hnot, h.nodup⟩, fun o' ho' => ?_⟩
      rcases mem_cons.1 ho' with rfl | ho'
      · exact ⟨c.close, getElem?_set_self hlt, rfl, (hends c hc hopen).close⟩
      · exact hset.pooled o' ho'
    · exact h

end Conns

/-- After any history, a new connection looks as new exactly when the object that it is made of does so; and it
always does if every connection so far was clean when it was closed and was not used after that. -/
theorem newConn_view_iff (es : List ConnEvent) (socket : Nat) (now : Int) (pick : Option Nat) :
    (((es.foldl Conns.step {}).newConn socket now pick).view = Connection.view {} ↔
        ((es.foldl Conns.step {}).get pick).2.AsNew) ∧ (Guarded Conns.step Conns.EndsClean {} es →
        ((es.foldl Conns.step {}).newConn socket now pick).view = Connection.view {}) := by
  refine ⟨Connection.view_renew_iff socket _ now, fun hok => (Connection.view_renew_iff socket _ now).2 ?_⟩
  have hempty : Conns.Inv {} := ⟨nodup_nil, fun _ h => absurd h not_mem_nil⟩
  have hinv : (es.foldl Conns.step {}).Inv := hok.run (fun _ e h hends => h.step e hends) hempty
  exact hinv.get pick

/-- A session of MULTI and SELECT leaves nothing to the next one. -/
theorem newConn_view_reused : Guarded Conns.step Conns.EndsClean {}
        [.newConn 7 0 none, .call 0 (.setMultiState true), .call 0 (.selectDB 3), .close 0] ∧
      (([ConnEvent.newConn 7 0 none, .call 0 (.setMultiState true), .call 0 (.selectDB 3),
        .close 0].foldl Conns.step {}).newConn 8 1 (some 0)).view = Connection.view {} :=
  ⟨by decide, (newConn_view_iff _ 8 1 (some 0)).2 (by decide)⟩

/-- A client authenticates as `alice` and leaves; the next one that gets the object is `alice`. -/
theorem newConn_view_inherited : ¬∀ (es : List ConnEvent) (socket : Nat) (now : Int) (pick : Option Nat),
    ((es.foldl Conns.step {}).newConn socket now pick).view = Connection.view {} := fun h =>
  absurd (h [.newConn 7 0 none, .call 0 (.setPassword "secret"), .call 0 (.setUser "alice"),
    .close 0] 8 1 (some 0)) (by decide)

end Hayakv.Conn
