import Hayakv.Cmd.Lists
import Hayakv.Engine.Hll

/-!
# Commands on HyperLogLogs

`internal/command/hll.go`. A HyperLogLog is changed in place in the array of its string, also by
PFCOUNT, which keeps its estimate in the header.
-/

namespace Hayakv.Cmd

open Engine Engine.Exec Hll

/-- `getAsHLL`. -/
def Entity.asHLL (e : Entity) : Except Reply Bytes :=
  match e.robj, e.value with
  | true, .str _ b =>
    if accepts (b.getD []) then .ok (b.getD [])
    else .error (.error "WRONGTYPE Key is not a valid HyperLogLog string value.")
  | _, _ => .error .wrongType

def getAsHLL : Key → Exec (Option Bytes) := getAs Entity.asHLL

def performEdit : Hll.Edit → Exec Unit
  | .write ws => editBuf ws []
  | .rebuild body => do
    cutBuf hllHdrSize
    editBuf [] [body]
  | .replace raw => freshBuf (some raw)

def performEdits (edits : List Hll.Edit) : Exec Unit := Prog.fold edits () fun _ e => performEdit e

/-- `Add` on the HyperLogLog worked on. -/
def hllAdd (elem : Bytes) : Exec Bool := do
  let raw ← readBuf
  let (edits, changed) ← orPanic (add murmurHash64A (raw.getD []) elem)
  performEdits edits
  return changed

/-- `Count` on the HyperLogLog worked on. -/
def hllCount (env : Env) : Exec UInt64 := do
  let raw ← readBuf
  let (edits, n) ← orPanic (count env.hllEstimate (raw.getD []))
  performEdits edits
  return n

/-- `Merge` of the HyperLogLog held for a key into the one worked on. The two may share bytes, so
both are read anew for each register. -/
def hllMerge (src : Key) : Exec Unit := do
  Prog.fold (List.range hllRegisters) () fun _ reg => do
    let raw ← readBuf
    let other ← readHeld src
    let edits ← orPanic (mergeStep (raw.getD []) (other.getD []) reg)
    performEdits edits
  performEdit invalidate

def openHLL (key : Key) (found : Bool) : Exec Unit := if found then openBuf key else freshBuf (some new)

/-- `execPFAdd`. Without elements the type of a key that exists is not looked at. -/
def execPFAdd (args : List Bytes) : Exec Reply := do
  let key ← arg args 0
  if args.length = 1 then
    let entity ← getEntity key
    check entity.isSome (.int 0)
    freshBuf (some new)
    putBuf key
    addAof ("pfadd" :: args)
    return .int 1
  else
    let h ← getAsHLL key
    openHLL key h.isSome
    let changed ← Prog.fold (args.drop 1) false fun changed elem => do
      let c ← hllAdd elem
      return changed || c
    check (h.isSome && !changed) (.int 0)
    putBuf key
    addAof ("pfadd" :: args)
    return .int 1

def execPFCount (env : Env) (args : List Bytes) : Exec Reply :=
  if args.length = 1 then do
    let key ← arg args 0
    let h ← getAsHLL key
    check h.isNone (.int 0)
    openBuf key
    let n ← hllCount env
    return .int (wrap64 n.toNat)
  else do
    freshBuf (some new)
    Prog.fold args () fun _ key => do
      let h ← getAsHLL key
      when h.isSome (hllMerge key)
    let n ← hllCount env
    return .int (wrap64 n.toNat)

/-- `execPFMerge`. What is merged into the destination in place stays when a later source is
refused. -/
def execPFMerge (args : List Bytes) : Exec Reply := do
  let destKey ← arg args 0
  let dest ← getAsHLL destKey
  openHLL destKey dest.isSome
  Prog.fold (args.drop 1) () fun _ srcKey => do
    let src ← getAsHLL srcKey
    when src.isSome (hllMerge srcKey)
  putBuf destKey
  addAof ("pfmerge" :: args)
  return .ok

def hllEncoding (raw : Bytes) : Reply := .status (if isDense raw then "dense" else "sparse")

/-- PFDEBUG TODENSE: add elements until the HyperLogLog worked on is dense. -/
def hllToDense : Exec Unit :=
  Prog.fold (List.range 200) () fun _ i => do
    let raw ← readBuf
    when (!isDense (raw.getD [])) do
      let _ ← hllAdd (str "pfdebug-todense-pad-" ++ List.replicate (i % 50) 120)
      return ()

/-- `execPFDebug`: the key is the second argument. -/
def execPFDebug (env : Env) (args : List Bytes) : Exec Reply := do
  let sub ← arg args 0
  let key ← arg args 1
  let h ← getAsHLL key
  let raw ← require h (.error "ERR no such key")
  openBuf key
  if toUpper sub = str "GETREG" then return .bulk (some (raw.drop hllHdrSize))
  else if toUpper sub = str "ENCODING" then return hllEncoding raw
  else if toUpper sub = str "TODENSE" then
    check (isDense raw) (.status (str "dense"))
    hllToDense
    putBuf key
    addAof (str "pfdebug" :: args)
    let raw ← readBuf
    return hllEncoding (raw.getD [])
  else if toUpper sub = str "DECODE" then
    let n ← hllCount env
    return .status (str "Encoding: " ++ (if raw[4]? = some 0 then str "sparse" else str "dense") ++
      str ", Registers: 16384, Count: " ++ itoa n.toNat)
  else return .err (str "ERR unknown PFDEBUG subcommand '" ++ toUpper sub ++ str "'")

/-- The HyperLogLogs of PFSELFTEST: of three elements, and after a merge with a fourth. -/
def selftest (env : Env) : Option Reply :=
  let step := fun (raw : Bytes) elem =>
    (add murmurHash64A raw elem).map fun (edits, _) => applyEdits raw edits
  ([str "foo", str "bar", str "baz"].foldlM step new).bind fun test =>
    (count env.hllEstimate test).bind fun (edits, n₁) =>
      if n₁ = 0 then some (.error "ERR PFSELFTEST failed: count is 0 after adding elements")
      else
        (step new (str "quux")).bind fun other =>
          (merge (applyEdits test edits) other).bind fun merged =>
            (count env.hllEstimate merged).bind fun (edits, n₂) =>
              let raw := applyEdits merged edits
              if n₂ = 0 then some (.error "ERR PFSELFTEST failed: count is 0 after merge")
              else if !accepts raw then
                some (.error "ERR PFSELFTEST failed: FromBytes returned false")
              else
                (count env.hllEstimate raw).map fun (_, n₃) =>
                  if n₃ = 0 then .error "ERR PFSELFTEST failed: round-trip count is 0" else .ok

def execPFSelftest (env : Env) (_args : List Bytes) : Exec Reply := orPanic (selftest env)

end Hayakv.Cmd
