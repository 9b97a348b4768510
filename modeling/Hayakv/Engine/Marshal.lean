import Hayakv.Engine.State

/-!
# Values as commands

`internal/persist/aof/marshal.go`: the command that makes a value, for DUMPKEY, undo logs and the
rewrite of the append-only file. There is none for a stream.
-/

namespace Hayakv.Engine

def flatPairs (ps : List (Bytes × Bytes)) : List Bytes := ps.flatMap fun (a, b) => [a, b]

/-- `EntityToCmd`: `some none` is a nil command, `none` a panic. -/
def entityToCmd (f : FloatOps) (key : Key) (e : Entity) : Option (Option CmdLine) :=
  match e.value with
  | .str _ b => some (some ["SET", key, b.getD []])
  | .coll (.list l) => some (some ("RPUSH" :: key :: l.elems))
  | .coll (.set s) => some (some ("SADD" :: key :: s.members))
  | .coll (.hash h) => some (some ("HMSET" :: key :: flatPairs h.fields))
  | .coll (.zset z) => (z.walk f).map fun es =>
      some ("ZADD" :: key :: flatPairs (es.map fun (m, s) => (f.format s, m)))
  | .coll (.stream _) => some none

def toTTLCmd (key : Key) : Option Int → CmdLine
  | none => ["PERSIST", key]
  | some t => ["PEXPIREAT", key, itoa (GoTime.logMilli t)]

end Hayakv.Engine
