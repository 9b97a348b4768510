import Hayakv.Aof.Log
import Hayakv.Repl.Backlog

/-!
# The database of a replicated write

`writeAof` gives the listeners of the persister a write, after a `SELECT` when its
database is not the last one; pings and GETACKs come between (`replication_master.go`).
A replica executes what it receives on a connection that it opens for the link, and
which has selected database `0` (`receiveAOF`, `replication_slave.go`). It opens one
for a full resync, at the snapshot's place in the stream, and one for each time that
a broken link is resumed.

The stream is cut into the parts that one connection received. The replica executes
the writes in the databases of the master exactly if each part begins in database
`0`, or has a `SELECT` before its first write (`replica_databases_iff`).
-/

namespace Hayakv.Repl

open Resp (CmdLine toBytes Fits Payload)
open List
open Aof (selectCmd)

def cmdName (args : CmdLine) : Bytes := toLower (args.headD [])

/-- A command that was given to the persister: a write on one of the databases. What the server
executes itself, `SELECT`, `PING` and `REPLCONF`, is not given to it. -/
structure Write (databases : Nat) where
  dbIndex : Int64
  lo : 0 ≤ dbIndex.toInt
  hi : dbIndex.toInt < databases
  cmdLine : CmdLine
  ne : cmdLine ≠ []
  isWrite : cmdName cmdLine ∉ [str "select", str "ping", str "replconf"]
  fits : Fits cmdLine

inductive StreamEvent (databases : Nat)
  | write (w : Write databases)
  | ping
  | getack

inductive Line (databases : Nat)
  | select (w : Write databases)
  | write (w : Write databases)
  | ping
  | getack

variable {databases : Nat}

def Line.cmdLine : Line databases → CmdLine
  | .select w => selectCmd w.dbIndex
  | .write w => w.cmdLine
  | .ping => ["ping"]
  | .getack => ["REPLCONF", "GETACK", "*"]

/-- The buffer that `writeAof` gives to the listeners. -/
def buffer (currentDB : Int64) (w : Write databases) : List (Line databases) :=
  if w.dbIndex ≠ currentDB then [.select w, .write w] else [.write w]

/-- The stream, from a point on where the persister's database is `currentDB`. -/
def streamLines : Int64 → List (StreamEvent databases) → List (Line databases)
  | _, [] => []
  | currentDB, .write w :: es => buffer currentDB w ++ streamLines w.dbIndex es
  | currentDB, .ping :: es => .ping :: streamLines currentDB es
  | currentDB, .getack :: es => .getack :: streamLines currentDB es

/-- The persister's database after a part of the run. -/
def currentDB : Int64 → List (StreamEvent databases) → Int64
  | db, [] => db
  | _, .write w :: es => currentDB w.dbIndex es
  | db, .ping :: es => currentDB db es
  | db, .getack :: es => currentDB db es

def executed : List (StreamEvent databases) → List (Int × CmdLine)
  | [] => []
  | .write w :: es => (w.dbIndex.toInt, w.cmdLine) :: executed es
  | .ping :: es => executed es
  | .getack :: es => executed es

/-! ## The replica -/

/-- `execSelect`: the database selected after the command. -/
def execSelect (databases : Nat) (selectedDB : Int) (cmdLine : CmdLine) : Int :=
  match cmdLine with
  | [_, arg] =>
    match parseInt arg with
    | none => selectedDB
    | some dbIndex => if databases ≤ dbIndex ∨ dbIndex < 0 then selectedDB else dbIndex
  | _ => selectedDB

/-- Whether `receiveAOF` answers the command line itself. -/
def isGetAck (args : CmdLine) : Bool :=
  match args with
  | a :: b :: _ => toLower a == "replconf" && toLower b == "getack"
  | _ => false

/-- `receiveAOF`: the writes that a connection executes, with the databases it executes them in, up
to the end of the link or an unexpected payload. -/
def receiveAOF (databases : Nat) : Int → List Payload → List (Int × CmdLine)
  | selectedDB, .data (.multiBulk args) :: ps =>
    if isGetAck args then receiveAOF databases selectedDB ps
    else if cmdName args = "ping" then receiveAOF databases selectedDB ps
    else if cmdName args = "select" then
      receiveAOF databases (execSelect databases selectedDB args) ps
    else (selectedDB, args) :: receiveAOF databases selectedDB ps
  | _, _ => []

/-- What a replica executes on one connection that receives a part of the stream. -/
def replica (part : List (Line databases)) : List (Int × CmdLine) :=
  receiveAOF databases 0 (Resp.parseStream (part.flatMap fun l => toBytes l.cmdLine))

def lastDB : Int → List (Line databases) → Int
  | db, [] => db
  | _, .select w :: ls => lastDB w.dbIndex.toInt ls
  | db, .write _ :: ls => lastDB db ls
  | db, .ping :: ls => lastDB db ls
  | db, .getack :: ls => lastDB db ls

def writes : Int → List (Line databases) → List (Int × CmdLine)
  | _, [] => []
  | _, .select w :: ls => writes w.dbIndex.toInt ls
  | db, .write w :: ls => (db, w.cmdLine) :: writes db ls
  | db, .ping :: ls => writes db ls
  | db, .getack :: ls => writes db ls

/-- A part of the stream in front of which its database is `db`: that is `0`, or a `SELECT` comes
before the first write. -/
def PartOk (db : Int) : List (Line databases) → Prop
  | [] => True
  | .select _ :: _ => True
  | .write _ :: _ => db = 0
  | .ping :: ls => PartOk db ls
  | .getack :: ls => PartOk db ls

/-- The parts that the connections of a replica received, one after the other. -/
def PartsOk : Int → List (List (Line databases)) → Prop
  | _, [] => True
  | db, part :: parts => PartOk db part ∧ PartsOk (lastDB db part) parts

/-! ## One connection -/

theorem Line.cmdLine_ne (l : Line databases) : l.cmdLine ≠ [] := by
  cases l with
  | select w => exact cons_ne_nil _ _
  | write w => exact w.ne
  | ping => exact cons_ne_nil _ _
  | getack => exact cons_ne_nil _ _

theorem Line.fits (l : Line databases) : Fits l.cmdLine := by
  cases l with
  | select w => exact Aof.fits_selectCmd w.dbIndex
  | write w => exact w.fits
  | ping => exact show Fits ["ping"] from ⟨by decide, by decide⟩
  | getack => exact show Fits ["REPLCONF", "GETACK", "*"] from ⟨by decide, by decide⟩

theorem execSelect_selectCmd (w : Write databases) (db : Int) :
    execSelect databases db (selectCmd w.dbIndex) = w.dbIndex.toInt := by
  have hparse : parseInt (itoa w.dbIndex.toInt) = some w.dbIndex.toInt :=
    parseInt_itoa w.dbIndex.le_toInt w.dbIndex.toInt_lt
  have hlo := w.lo
  have hhi := w.hi
  rw [selectCmd, execSelect, hparse]
  exact if_neg (by omega)

theorem isGetAck_write (w : Write databases) : isGetAck w.cmdLine = false := by
  have hname := w.isWrite
  cases hcmd : w.cmdLine with
  | nil => rfl
  | cons a args =>
    cases args with
    | nil => rfl
    | cons b args =>
      rw [isGetAck, Bool.and_eq_false_iff]
      refine .inl (beq_eq_false_iff_ne.2 fun hc => hname ?_)
      rw [cmdName, hcmd, headD_cons, hc]
      decide

/-- A connection executes the writes of the lines that it receives, and follows their `SELECT`s. -/
theorem receiveAOF_lines (db : Int) (ls : List (Line databases)) :
    receiveAOF databases db (ls.map (fun l => .data (.multiBulk l.cmdLine)) ++ [.error .eof]) = writes db ls := by
  induction ls generalizing db with
  | nil => rfl
  | cons l ls ih =>
    rw [map_cons, cons_append, receiveAOF]
    cases l with
    | select w =>
      have hack : isGetAck (selectCmd w.dbIndex) = false := rfl
      have hname : cmdName (selectCmd w.dbIndex) = str "select" := rfl
      rw [Line.cmdLine, hack, hname, execSelect_selectCmd, if_neg (by decide), if_neg (by decide),
        if_pos rfl, ih, writes]
    | write w =>
      have hname := w.isWrite
      simp only [mem_cons, not_mem_nil, or_false, not_or] at hname
      rw [Line.cmdLine, isGetAck_write, if_neg (by decide), if_neg hname.2.1, if_neg hname.1, ih, writes]
    | ping => rw [Line.cmdLine, if_neg (by decide), if_pos (by decide), ih, writes]
    | getack => rw [Line.cmdLine, if_pos (by decide), ih, writes]

theorem replica_eq (part : List (Line databases)) : replica part = writes 0 part := by
  have hfits : ∀ args ∈ part.map Line.cmdLine, Fits args := fun args hargs => by
    obtain ⟨l, -, rfl⟩ := mem_map.1 hargs
    exact l.fits
  have hparse := Resp.parseStream_log hfits
  have hdata : ∀ l : Line databases, Payload.data (.ofArgs l.cmdLine) = .data (.multiBulk l.cmdLine) :=
    fun l => congrArg Payload.data (if_neg l.cmdLine_ne)
  rw [flatMap_map, map_map] at hparse
  rw [replica, hparse, ← receiveAOF_lines]
  exact congrArg (fun ps => receiveAOF databases 0 (ps ++ _)) (map_congr_left fun l _ => hdata l)

/-! ## The parts of the stream -/

theorem writes_append (db : Int) (ls ms : List (Line databases)) :
    writes db (ls ++ ms) = writes db ls ++ writes (lastDB db ls) ms := by
  induction ls generalizing db with
  | nil => rfl
  | cons l ls ih => cases l <;> simp [writes, lastDB, ih]

theorem length_writes (db db' : Int) (ls : List (Line databases)) :
    (writes db ls).length = (writes db' ls).length := by
  induction ls generalizing db db' with
  | nil => rfl
  | cons l ls ih =>
    cases l with
    | select w => rfl
    | write w => exact congrArg (· + 1) (ih db db')
    | ping => exact ih db db'
    | getack => exact ih db db'

/-- The database in front of a part matters exactly if it has a write before a `SELECT`. -/
theorem writes_zero_iff (db : Int) (ls : List (Line databases)) : writes 0 ls = writes db ls ↔ PartOk db ls := by
  induction ls with
  | nil => exact ⟨fun _ => trivial, fun _ => rfl⟩
  | cons l ls ih =>
    cases l with
    | select w => exact ⟨fun _ => trivial, fun _ => rfl⟩
    | write w =>
      constructor
      · intro h
        exact (congrArg Prod.fst (cons.inj h).1).symm
      · rintro rfl
        rfl
    | ping => exact ih
    | getack => exact ih

/-- All the parts, by induction on them: each has the same number of writes in either case. -/
theorem flatMap_writes_iff (db : Int) (parts : List (List (Line databases))) :
    parts.flatMap (writes 0) = writes db parts.flatten ↔ PartsOk db parts := by
  induction parts generalizing db with
  | nil => exact ⟨fun _ => trivial, fun _ => rfl⟩
  | cons part parts ih =>
    rw [flatMap_cons, flatten_cons, writes_append, PartsOk, ← ih, ← writes_zero_iff]
    constructor
    · exact fun h => append_inj h (length_writes 0 db part)
    · rintro ⟨h₁, h₂⟩
      rw [h₁, h₂]

theorem writes_streamLines (db : Int64) (es : List (StreamEvent databases)) :
    writes db.toInt (streamLines db es) = executed es := by
  induction es generalizing db with
  | nil => rfl
  | cons e es ih =>
    cases e with
    | write w =>
      rw [streamLines, executed, buffer]
      split
      · exact congrArg (_ :: ·) (ih w.dbIndex)
      · rename_i hdb
        rw [not_not] at hdb
        rw [← hdb]
        exact congrArg (_ :: ·) (ih w.dbIndex)
    | ping => exact ih db
    | getack => exact ih db

/-- A run of the master up to a snapshot, and on; and the parts of the stream since that the connections of
a replica received. The replica executes what the master executed since the snapshot, in the same databases,
exactly if each part begins in database `0` or has a `SELECT` before its first write. -/
theorem replica_databases_iff (before after : List (StreamEvent databases))
    (parts : List (List (Line databases))) (h : parts.flatten = streamLines (currentDB 0 before) after) :
    parts.flatMap replica = executed after ↔ PartsOk (currentDB 0 before).toInt parts := by
  rw [← flatMap_writes_iff, h, writes_streamLines, List.flatMap_congr fun part _ => replica_eq part]

def setOn (dbIndex : Int64) (lo : 0 ≤ dbIndex.toInt := by decide)
    (hi : dbIndex.toInt < (16 : Nat) := by decide) : Write 16 :=
  ⟨dbIndex, lo, hi, ["set", "k", "v"], by decide, by decide, ⟨by decide, by decide⟩⟩

/-- A snapshot while the persister's database is `3`, and a write on database `5` after it; the
link is resumed before that write's `SELECT` was received. -/
theorem replica_databases_selected :
    [[Line.ping], [.select (setOn 5), .write (setOn 5)]].flatten =
        streamLines (currentDB 0 [.write (setOn 3)]) [.ping, .write (setOn 5)] ∧
      [[Line.ping], [.select (setOn 5), .write (setOn 5)]].flatMap replica =
        executed [.ping, .write (setOn 5)] :=
  ⟨rfl, (replica_databases_iff [.write (setOn 3)] [.ping, .write (setOn 5)] _ rfl).2
    ⟨trivial, trivial, trivial⟩⟩

/-- A snapshot while the persister's database is `3`, and a write on the same database after it: the
replica executes it in database `0`. -/
theorem replica_databases_lost : ¬∀ (before after : List (StreamEvent 16)) (parts : List (List (Line 16))),
      parts.flatten = streamLines (currentDB 0 before) after → parts.flatMap replica = executed after :=
  fun h => absurd (h [.write (setOn 3)] [.write (setOn 3)] [[.write (setOn 3)]] rfl) (by decide)

end Hayakv.Repl
