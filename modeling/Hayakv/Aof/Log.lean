import Hayakv.Resp.Parser
import Hayakv.Lib.Machine

/-!
# The append-only file: writing, rewriting and reading back

`internal/persist/aof/{aof,rewrite}.go` at the level of bytes: `writeAof` appends a
command line, after a `SELECT` when the database changes; `StartRewrite` records
the length of the file and the database; `FinishRewrite` puts a dump, a `SELECT`
and the bytes written since in the file's place. `LoadAof` skips the RDB preamble
and parses the rest; a `SELECT` sets the database of the lines after it (`tagged`).

Files are read and written without errors. `RdbDecoder` says what is used of the
RDB decoder, which is third-party code.

Rewrites may overlap. When one ends while another runs, the length recorded by the
other is that of a file that no longer exists (`overlapping_rewrites_corrupt`).
When that does not happen, the file always reads back as its dump and the payloads
since (`log_reads_back`).
-/

namespace Hayakv.Aof

open Resp List

/-- A payload of `aofChan`. Its lengths are Go `int`s. -/
structure Payload where
  dbIndex : Int64
  cmdLine : CmdLine
  fits : Fits cmdLine

/-- The part of a `Persister` that the log is about: the bytes of `aofFile`, and `currentDB`. -/
structure Persister where
  aofFile : Bytes
  currentDB : Int64

/-- `utils.ToCmdLine("SELECT", strconv.Itoa(dbIndex))`. -/
def selectCmd (dbIndex : Int64) : CmdLine := ["SELECT", itoa dbIndex.toInt]

def Persister.writeAof (s : Persister) (p : Payload) : Persister where
  aofFile := s.aofFile ++ (if p.dbIndex ≠ s.currentDB then toBytes (selectCmd p.dbIndex) else []) ++ toBytes p.cmdLine
  currentDB := p.dbIndex

structure RewriteCtx where
  fileSize : Nat
  dbIdx : Int64

def Persister.startRewrite (s : Persister) : RewriteCtx := ⟨s.aofFile.length, s.currentDB⟩

/-- What `DoRewrite` writes to the temporary file: the command lines of each database in turn
(`generateAof`), or an RDB file (`generateRDB`). -/
inductive Dump
  | aof (dbs : List (List CmdLine))
  | rdb (file : Bytes)

/-- The command lines that `generateAof` writes: a `SELECT` in front of each database. -/
def dumpLines : Nat → List (List CmdLine) → List CmdLine
  | _, [] => []
  | i, db :: dbs => [str "SELECT", itoa i] :: db ++ dumpLines (i + 1) dbs

def Dump.bytes : Dump → Bytes
  | aof dbs => (dumpLines 0 dbs).flatMap toBytes
  | rdb file => file

def Persister.finishRewrite (s : Persister) (ctx : RewriteCtx) (dump : Dump) : Persister where
  aofFile := dump.bytes ++ toBytes (selectCmd ctx.dbIdx) ++ s.aofFile.drop ctx.fileSize ++
    toBytes (selectCmd s.currentDB)
  currentDB := s.currentDB

/-! ## Reading -/

/-- The RDB decoder: where the command lines start after an RDB preamble, if the file has one. -/
structure RdbDecoder where
  skip : Bytes → Option Nat
  /-- The RDB files that `generateRDB` writes. -/
  IsRdb : Bytes → Prop
  skip_rdb : ∀ file rest, IsRdb file → skip (file ++ rest) = some file.length
  /-- A log without preamble is empty or starts with `*`. -/
  skip_log : ∀ file : Bytes, file = [] ∨ file.head? = some 42 → skip file = none

/-- The command lines that `LoadAof` executes: it stops at the end of the stream, and passes over
other errors and replies. -/
def commands : List Resp.Payload → List CmdLine
  | [] => []
  | .error .eof :: _ => []
  | .error _ :: ps => commands ps
  | .data (.multiBulk args) :: ps => args :: commands ps
  | .data _ :: ps => commands ps

def readAof (rdb : RdbDecoder) (file : Bytes) : List CmdLine :=
  commands (parseStream (file.drop ((rdb.skip file).getD 0)))

/-- Whether a command line is a `SELECT`, as `LoadAof` tests it. -/
def isSelect (args : CmdLine) : Bool := args.head?.map toLower == some (str "select")

/-- The database after a command line. -/
def nextDB (db : Int) (args : CmdLine) : Int := if isSelect args then ((args[1]?).bind parseInt).getD db else db

def lastDB (db : Int) (log : List CmdLine) : Int := log.foldl nextDB db

/-- The command lines with the databases they run in; each `SELECT` sets the database. -/
def tagged (db : Int) : List CmdLine → List (Int × CmdLine)
  | [] => []
  | args :: log =>
    if isSelect args then tagged (nextDB db args) log
    else if args = [] then tagged db log
    else (db, args) :: tagged db log

/-! ## The log with its rewrites -/

/-- A rewrite under way: what `StartRewrite` recorded, the payloads written since, and whether
another rewrite has ended since. -/
structure Running where
  ctx : RewriteCtx
  since : List Payload
  stale : Bool

structure Sys where
  persister : Persister
  running : List (Nat × Running)
  dump : Dump
  since : List Payload

inductive Event
  | write (p : Payload)
  | start (id : Nat)
  | finish (id : Nat) (dump : Dump)

def Sys.init : Sys := ⟨⟨[], 0⟩, [], .aof [], []⟩

def Sys.step (s : Sys) : Event → Sys
  | .write p =>
    { s with
      persister := s.persister.writeAof p
      running := s.running.map fun (id, r) => (id, { r with since := r.since ++ [p] })
      since := s.since ++ [p] }
  | .start id =>
    { s with running := (id, ⟨s.persister.startRewrite, [], false⟩) :: s.running.filter (·.1 ≠ id) }
  | .finish id dump =>
    match s.running.lookup id with
    | none => s
    | some r =>
      { persister := s.persister.finishRewrite r.ctx dump
        running := (s.running.filter (·.1 ≠ id)).map fun (id, r) => (id, { r with stale := true })
        dump
        since := r.since }

/-- The condition on a step: a payload is a command, not empty and not a `SELECT`; the dump is
one that `DoRewrite` can write; and no other rewrite has ended since the one that ends began. -/
def Sys.Ok (rdb : RdbDecoder) (s : Sys) : Event → Prop
  | .write p => p.cmdLine ≠ [] ∧ isSelect p.cmdLine = false
  | .start _ => True
  | .finish id dump =>
    (∀ r, s.running.lookup id = some r → r.stale = false) ∧
      match dump with
      | .aof dbs => dbs.length < 2 ^ 63 ∧ ∀ db ∈ dbs, ∀ args ∈ db, Fits args
      | .rdb file => rdb.IsRdb file

def Sys.RunOk (rdb : RdbDecoder) (s : Sys) : List Event → Prop
  | [] => True
  | e :: es => s.Ok rdb e ∧ (s.step e).RunOk rdb es

def pairs (ps : List Payload) : List (Int × CmdLine) := ps.map fun p => (p.dbIndex.toInt, p.cmdLine)

/-! ## Reading back what was written -/

theorem commands_append_eof (log : List CmdLine) :
    commands (log.map (fun args => .data (.ofArgs args)) ++ [.error .eof]) = log.filter (· ≠ []) := by
  induction log with
  | nil => rfl
  | cons args log ih =>
    by_cases h : args = []
    · simpa [Reply.ofArgs, h, commands] using ih
    · simpa [Reply.ofArgs, h, commands] using ih

theorem tagged_filter (db : Int) (log : List CmdLine) : tagged db (log.filter (· ≠ [])) = tagged db log := by
  induction log generalizing db with
  | nil => rfl
  | cons args log ih =>
    by_cases h : args = []
    · simpa [h, tagged, isSelect] using ih db
    · rw [filter_cons_of_pos (by simpa using h), tagged, tagged, ih, ih]

theorem lastDB_append (db : Int) (l₁ l₂ : List CmdLine) :
    lastDB db (l₁ ++ l₂) = lastDB (lastDB db l₁) l₂ := foldl_append

theorem tagged_append (db : Int) (l₁ l₂ : List CmdLine) :
    tagged db (l₁ ++ l₂) = tagged db l₁ ++ tagged (lastDB db l₁) l₂ := by
  induction l₁ generalizing db with
  | nil => rfl
  | cons args l₁ ih =>
    rw [cons_append, tagged, tagged, lastDB, foldl_cons, ← lastDB]
    split
    · exact ih _
    rename_i hsel
    have hdb : nextDB db args = db := by simp [nextDB, hsel]
    rw [hdb]
    split
    · exact ih _
    · rw [ih, cons_append]

theorem isSelect_selectCmd (db : Int64) : isSelect (selectCmd db) = true := rfl

theorem nextDB_selectCmd (db : Int) (d : Int64) : nextDB db (selectCmd d) = d.toInt := by
  have hparse : parseInt (itoa d.toInt) = some d.toInt := parseInt_itoa d.le_toInt d.toInt_lt
  rw [nextDB, isSelect_selectCmd, if_pos rfl]
  simp [selectCmd, hparse]

@[simp] theorem tagged_selectCmd (db : Int) (d : Int64) (log : List CmdLine) :
    tagged db (selectCmd d :: log) = tagged d.toInt log := by
  rw [tagged, isSelect_selectCmd, if_pos rfl, nextDB_selectCmd]

@[simp] theorem lastDB_selectCmd (db : Int) (d : Int64) (log : List CmdLine) :
    lastDB db (selectCmd d :: log) = lastDB d.toInt log := by
  rw [lastDB, foldl_cons, nextDB_selectCmd, ← lastDB]

theorem fits_select {n : Int} (hlo : -2 ^ 63 ≤ n) (hhi : n < 2 ^ 63) : Fits ["SELECT", itoa n] := by
  refine ⟨show 2 < 2 ^ 63 by decide, fun arg harg => ?_⟩
  rcases mem_cons.1 harg with rfl | harg
  · decide
  · rw [mem_singleton.1 harg]
    exact length_itoa_lt hlo hhi

theorem fits_selectCmd (d : Int64) : Fits (selectCmd d) := fits_select d.le_toInt d.toInt_lt

/-- A file is a log: an RDB file or nothing, and then command lines. -/
structure IsLog (rdb : RdbDecoder) (file rdbFile : Bytes) (log : List CmdLine) : Prop where
  file_eq : file = rdbFile ++ log.flatMap toBytes
  preamble : rdbFile = [] ∨ rdb.IsRdb rdbFile
  fits : ∀ args ∈ log, Fits args

theorem head_flatMap_toBytes (log : List CmdLine) :
    log.flatMap toBytes = [] ∨ (log.flatMap toBytes).head? = some 42 := by
  cases log with
  | nil => exact .inl rfl
  | cons args log => exact .inr rfl

variable {log : List CmdLine} {s : Sys} {rdbFile : Bytes}

theorem IsLog.tagged_readAof {rdb : RdbDecoder} {file rdbFile : Bytes} (h : IsLog rdb file rdbFile log)
    (db : Int) : tagged db (readAof rdb file) = tagged db log := by
  have hskip : (rdb.skip file).getD 0 = rdbFile.length := by
    rcases h.preamble with hnil | hrdb
    · rw [h.file_eq, hnil, nil_append, rdb.skip_log _ (head_flatMap_toBytes log)]
      rfl
    · rw [h.file_eq, rdb.skip_rdb _ _ hrdb]
      rfl
  rw [readAof, hskip, h.file_eq, drop_left, parseStream_log h.fits, commands_append_eof, tagged_filter]

theorem IsLog.append {rdb : RdbDecoder} {file rdbFile : Bytes} (h : IsLog rdb file rdbFile log)
    {more : List CmdLine} (hfits : ∀ args ∈ more, Fits args) :
    IsLog rdb (file ++ more.flatMap toBytes) rdbFile (log ++ more) where
  file_eq := by rw [h.file_eq, flatMap_append, append_assoc]
  preamble := h.preamble
  fits := fun args harg => (mem_append.1 harg).elim (h.fits args) (hfits args)

/-! ## What every run keeps -/

/-- What a rewrite under way needs, unless it is stale: the log splits where it began, there the
database was the recorded one, and the rest of the log has the payloads since. -/
def RunningInv (rdbFile : Bytes) (log : List CmdLine) (r : Running) : Prop :=
  r.stale = false → ∃ log₀ log₁, log = log₀ ++ log₁ ∧
    r.ctx.fileSize = (rdbFile ++ log₀.flatMap toBytes).length ∧
    lastDB 0 log₀ = r.ctx.dbIdx.toInt ∧ tagged r.ctx.dbIdx.toInt log₁ = pairs r.since

def Dump.lines : Dump → List CmdLine
  | aof dbs => dumpLines 0 dbs
  | rdb _ => []

structure Sys.Inv (rdb : RdbDecoder) (s : Sys) (rdbFile : Bytes) (log : List CmdLine) : Prop where
  isLog : IsLog rdb s.persister.aofFile rdbFile log
  currentDB : lastDB 0 log = s.persister.currentDB.toInt
  since : tagged 0 log = tagged 0 s.dump.lines ++ pairs s.since
  running : ∀ x ∈ s.running, RunningInv rdbFile log x.2

theorem Sys.inv_init (rdb : RdbDecoder) : Sys.init.Inv rdb [] [] :=
  ⟨⟨rfl, .inl rfl, by simp⟩, rfl, rfl, by simp [Sys.init]⟩

/-- What `writeAof` appends: the payload, after a `SELECT` if the database changes. -/
theorem writeAof_lines (s : Persister) (p : Payload) (hne : p.cmdLine ≠ []) (hsel : isSelect p.cmdLine = false) :
    ∃ more : List CmdLine, (s.writeAof p).aofFile = s.aofFile ++ more.flatMap toBytes ∧
      (∀ args ∈ more, Fits args) ∧ lastDB s.currentDB.toInt more = p.dbIndex.toInt ∧
      tagged s.currentDB.toInt more = pairs [p] := by
  have hlast : ∀ db, lastDB db [p.cmdLine] = db := fun db => by simp [lastDB, nextDB, hsel]
  have htag : tagged p.dbIndex.toInt [p.cmdLine] = pairs [p] := by
    simp [tagged, hsel, hne, pairs]
  by_cases hdb : p.dbIndex = s.currentDB
  · refine ⟨[p.cmdLine], by simp [Persister.writeAof, hdb], by simpa using p.fits, ?_, ?_⟩
    · rw [hlast, hdb]
    · rw [← hdb, htag]
  refine ⟨[selectCmd p.dbIndex, p.cmdLine], by simp [Persister.writeAof, hdb], ?_, ?_, ?_⟩
  · intro args harg
    rcases mem_cons.1 harg with rfl | harg
    · exact fits_selectCmd _
    · rw [mem_singleton.1 harg]
      exact p.fits
  · rw [lastDB_selectCmd, hlast]
  · rw [tagged_selectCmd, htag]

theorem pairs_append (ps qs : List Payload) : pairs (ps ++ qs) = pairs ps ++ pairs qs := map_append

theorem Sys.Inv.write {rdb : RdbDecoder} (h : s.Inv rdb rdbFile log) (p : Payload) (hne : p.cmdLine ≠ [])
    (hsel : isSelect p.cmdLine = false) : ∃ log', (s.step (.write p)).Inv rdb rdbFile log' := by
  obtain ⟨more, hfile, hfits, hlast, htag⟩ := writeAof_lines s.persister p hne hsel
  refine ⟨log ++ more, ⟨?_, ?_, ?_, fun x hx => ?_⟩⟩
  · change IsLog rdb (s.persister.writeAof p).aofFile _ _
    rw [hfile]
    exact h.isLog.append hfits
  · rw [lastDB_append, h.currentDB, hlast]
    rfl
  · rw [tagged_append, h.currentDB, htag, h.since, append_assoc, ← pairs_append]
    rfl
  · obtain ⟨⟨id, r⟩, hr, rfl⟩ := mem_map.1 hx
    intro hstale
    obtain ⟨log₀, log₁, rfl, hsize, hdb, hsince⟩ := h.running _ hr hstale
    refine ⟨log₀, log₁ ++ more, append_assoc _ _ _, hsize, hdb, ?_⟩
    have hcur : lastDB r.ctx.dbIdx.toInt log₁ = s.persister.currentDB.toInt := by
      rw [← h.currentDB, lastDB_append, hdb]
    rw [tagged_append, hsince, hcur, htag, ← pairs_append]

theorem Sys.Inv.start {rdb : RdbDecoder} (h : s.Inv rdb rdbFile log) (id : Nat) :
    (s.step (.start id)).Inv rdb rdbFile log := by
  refine ⟨h.isLog, h.currentDB, h.since, fun x hx => ?_⟩
  rcases mem_cons.1 hx with rfl | hx
  · exact fun _ => ⟨log, [], by simp, by rw [← h.isLog.file_eq]; rfl, h.currentDB, rfl⟩
  · exact h.running x (mem_of_mem_filter hx)

theorem fits_dumpLines {dbs : List (List CmdLine)} {i : Nat} (hlen : i + dbs.length ≤ 2 ^ 63)
    (h : ∀ db ∈ dbs, ∀ args ∈ db, Fits args) : ∀ args ∈ dumpLines i dbs, Fits args := by
  induction dbs generalizing i with
  | nil => simp [dumpLines]
  | cons db dbs ih =>
    intro args harg
    rw [length_cons] at hlen
    rw [dumpLines, cons_append, mem_cons, mem_append] at harg
    rcases harg with rfl | harg | harg
    · exact fits_select (by omega) (by omega)
    · exact h db mem_cons_self args harg
    · exact ih (by omega) (fun d hd => h d (mem_cons_of_mem _ hd)) args harg

theorem isLog_dump {rdb : RdbDecoder} {id : Nat} {dump : Dump} (hok : s.Ok rdb (.finish id dump)) :
    ∃ rdbFile, IsLog rdb dump.bytes rdbFile dump.lines := by
  cases dump with
  | aof dbs =>
    exact ⟨[], rfl, .inl rfl, fits_dumpLines (by simpa using hok.2.1.le) hok.2.2⟩
  | rdb file => exact ⟨file, (append_nil _).symm, .inr hok.2, by simp [Dump.lines]⟩

/-- The rewritten file: the dump, the tail under the database it began in, and a `SELECT` of the
current database. -/
theorem Sys.Inv.finish {rdb : RdbDecoder} (h : s.Inv rdb rdbFile log) {id : Nat} {dump : Dump}
    (hok : s.Ok rdb (.finish id dump)) : ∃ rdbFile' log', (s.step (.finish id dump)).Inv rdb rdbFile' log' := by
  cases hr : s.running.lookup id with
  | none => exact ⟨rdbFile, log, by simpa [Sys.step, hr] using h⟩
  | some r =>
    have hmem : (id, r) ∈ s.running := by
      obtain ⟨l₁, l₂, heq, -⟩ := lookup_eq_some_iff.1 hr
      rw [heq]
      simp
    obtain ⟨log₀, log₁, hlog, hsize, hdb, hsince⟩ := h.running _ hmem (hok.1 r hr)
    obtain ⟨rdbFile', hdump⟩ := isLog_dump hok
    have htail : s.persister.aofFile.drop r.ctx.fileSize = log₁.flatMap toBytes := by
      rw [h.isLog.file_eq, hlog, hsize, flatMap_append, ← append_assoc, drop_left]
    have hmore : IsLog rdb (s.persister.finishRewrite r.ctx dump).aofFile rdbFile'
        (dump.lines ++ (selectCmd r.ctx.dbIdx :: log₁ ++ [selectCmd s.persister.currentDB])) := by
      have hfits : ∀ args ∈ selectCmd r.ctx.dbIdx :: log₁ ++ [selectCmd s.persister.currentDB], Fits args := by
        simp only [cons_append, mem_cons, mem_append, not_mem_nil, or_false]
        rintro args (rfl | harg | rfl)
        · exact fits_selectCmd _
        · exact h.isLog.fits args (hlog ▸ mem_append_right _ harg)
        · exact fits_selectCmd _
      have := hdump.append hfits
      simpa [Persister.finishRewrite, htail] using this
    refine ⟨rdbFile', dump.lines ++
      (selectCmd r.ctx.dbIdx :: log₁ ++ [selectCmd s.persister.currentDB]), ?_, ?_, ?_, fun x hx => ?_⟩
    · simpa [Sys.step, hr] using hmore
    · rw [lastDB_append, cons_append, lastDB_selectCmd, lastDB_append, lastDB_selectCmd]
      simp [Sys.step, hr, lastDB, Persister.finishRewrite]
    · rw [tagged_append, cons_append, tagged_selectCmd, tagged_append, tagged_selectCmd, hsince]
      simp [Sys.step, hr, tagged]
    · -- every rewrite still under way is now stale
      simp only [Sys.step, hr] at hx
      obtain ⟨⟨id', r'⟩, -, rfl⟩ := mem_map.1 hx
      exact fun hstale => by cases hstale

theorem Sys.Inv.step {rdb : RdbDecoder} (h : s.Inv rdb rdbFile log) {e : Event} (hok : s.Ok rdb e) :
    ∃ rdbFile' log', (s.step e).Inv rdb rdbFile' log' := by
  cases e with
  | write p => exact ⟨rdbFile, h.write p hok.1 hok.2⟩
  | start id => exact ⟨rdbFile, log, h.start id⟩
  | finish id dump => exact h.finish hok

theorem Sys.Inv.run {rdb : RdbDecoder} (h : s.Inv rdb rdbFile log) {es : List Event} (hok : s.RunOk rdb es) :
    ∃ rdbFile' log', (es.foldl Sys.step s).Inv rdb rdbFile' log' := by
  induction es generalizing s rdbFile log with
  | nil => exact ⟨rdbFile, log, h⟩
  | cons e es ih =>
    obtain ⟨rdbFile', log', h'⟩ := h.step hok.1
    exact ih h' hok.2

/-- After every run of writes and rewrites whose steps meet `Sys.Ok`, reading the file from its start
gives the command lines of the last dump and then exactly the payloads written since that dump was
started, each with its database, in order. -/
theorem log_reads_back (rdb : RdbDecoder) {es : List Event} (hok : Sys.init.RunOk rdb es) :
    let s := es.foldl Sys.step Sys.init
    tagged 0 (readAof rdb s.persister.aofFile) = tagged 0 s.dump.lines ++ pairs s.since := by
  obtain ⟨rdbFile, log, h⟩ := (Sys.inv_init rdb).run hok
  dsimp only
  rw [h.isLog.tagged_readAof, h.since]

/-! ## Overlapping rewrites -/

/-- A decoder that takes a file starting with `R` for an RDB file of one byte. -/
def tinyRdb : RdbDecoder where
  skip s := if s.head? = some 82 then some 1 else none
  IsRdb file := file = [82]
  skip_rdb := by rintro _ rest rfl; rfl
  skip_log := by
    rintro file (rfl | hhead)
    · rfl
    · rw [hhead]; rfl

/-- `SET <key> <value>`, with a key and a value of one byte. -/
def setPayload (dbIndex : Int64) (key value : UInt8) : Payload :=
  ⟨dbIndex, ["set", [key], [value]], show 3 < 2 ^ 63 by decide, by
    simp only [List.mem_cons, List.not_mem_nil, or_false]
    rintro _ (rfl | rfl | rfl)
    · decide
    · exact show 1 < 2 ^ 63 by decide
    · exact show 1 < 2 ^ 63 by decide⟩

/-- The dump of sixteen databases that hold `a = 1`. -/
def dumpA : Dump := .aof ([["set", [97], [49]]] :: List.replicate 15 [])

/-- Twenty times `SET a 1`; two rewrites start; `SET k v`; the rewrites end. -/
def overlappingRun : List Event :=
  List.replicate 20 (.write (setPayload 0 97 49)) ++
    [.start 1, .start 2, .write (setPayload 0 107 118), .finish 1 dumpA, .finish 2 dumpA]

/-- The second rewrite looks for its tail past the end of the file that the first one wrote:
`SET k v` is lost. -/
theorem overlapping_rewrites_corrupt : let s := overlappingRun.foldl Sys.step Sys.init
    pairs s.since = [(0, [str "set", [107], [118]])] ∧
      tagged 0 (readAof tinyRdb s.persister.aofFile) = tagged 0 s.dump.lines ∧
      ¬pairs s.since <:+ tagged 0 (readAof tinyRdb s.persister.aofFile) := by
  decide +kernel

theorem log_reads_back_one_rewrite :
    let s := [Event.write (setPayload 0 97 49), .start 1, .write (setPayload 3 98 50),
      .finish 1 dumpA, .write (setPayload 0 99 51)].foldl Sys.step Sys.init
    tagged 0 (readAof tinyRdb s.persister.aofFile) = tagged 0 s.dump.lines ++ pairs s.since := by
  refine log_reads_back tinyRdb ⟨⟨by decide, by decide⟩, trivial, ⟨by decide, by decide⟩, ⟨?_, ?_⟩,
    ⟨by decide, by decide⟩, trivial⟩
  · rintro r hr
    exact Option.some.inj hr ▸ rfl
  · refine ⟨show 16 < 2 ^ 63 by decide, fun db hdb args harg => ?_⟩
    rcases List.mem_cons.1 hdb with rfl | hdb
    · rw [List.mem_singleton.1 harg]
      exact (setPayload 0 97 49).fits
    · rw [(List.mem_replicate.1 hdb).2] at harg
      cases harg

end Hayakv.Aof
