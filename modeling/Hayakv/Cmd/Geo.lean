import Hayakv.Cmd.SortedSets

/-!
# Commands on places

`internal/command/geo.go`: places are members of a sorted set, by geohash.
-/

namespace Hayakv.Cmd

open Engine Engine.Exec

def unsupportedUnit : Reply := .error "ERR unsupported unit provided. please use m, km"

def parsePlaces (env : Env) : List Bytes → Except Reply (List (Bytes × UInt64))
  | lngStr :: latStr :: member :: args =>
    match env.float.parse lngStr, env.float.parse latStr with
    | some lng, some lat =>
      if env.geo.valid lat lng then
        (parsePlaces env args).map ((member, env.geo.encode lat lng) :: ·)
      else .error (.err ("ERR invalid longitude,latitude pair " ++ latStr ++ "," ++ lngStr))
    | _, _ => .error notFloat
  | _ => .ok []

def execGeoAdd (env : Env) (args : List Bytes) : Exec Reply := do
  check (args.length < 4 || args.length % 3 ≠ 1) (.error "ERR wrong number of arguments for 'geoadd' command")
  let key ← arg args 0
  let elements ← orReply (parsePlaces env (args.drop 1))
  let zset ← getOrInitZSet key
  let (zset, added) := elements.foldl (fun (z, n) (member, score) =>
    let (z, new) := z.add env.thresholds member score
    (z, if new then n + 1 else n)) (zset, 0)
  store key (.zset zset)
  addAof ("geoadd" :: args)
  return .int added

def execGeoPos (env : Env) (args : List Bytes) : Exec Reply := do
  check (args.length < 1) (.error "ERR wrong number of arguments for 'geopos' command")
  let key ← arg args 0
  let zset ← getAsZSet key
  let zset ← require zset .nullBulk
  return .array ((args.drop 1).map fun member =>
    match zset.get member with
    | none => .emptyMultiBulk
    | some score =>
      let (lat, lng) := env.geo.decode score
      .multiBulk [env.float.format lng, env.float.format lat])

def distanceIn (env : Env) (unit : Bytes) (dis : UInt64) : Except Reply UInt64 :=
  if toLower unit = "m" then .ok dis
  else if toLower unit = "km" then .ok (env.geo.div1000 dis)
  else .error unsupportedUnit

def execGeoDist (env : Env) (args : List Bytes) : Exec Reply := do
  check (args.length ≠ 3 && args.length ≠ 4) (.error "ERR wrong number of arguments for 'geodist' command")
  let key ← arg args 0
  let zset ← getAsZSet key
  let zset ← require zset .nullBulk
  let member₁ ← arg args 1
  let score₁ ← require (zset.get member₁) .nullBulk
  let member₂ ← arg args 2
  let score₂ ← require (zset.get member₂) .nullBulk
  let dis ← orReply (distanceIn env (args[3]?.getD "m")
    (env.geo.distance (env.geo.decode score₁) (env.geo.decode score₂)))
  return .bulk (some (env.float.format dis))

/-- `execGeoHash`. For a missing member it answers the bytes of an empty array, as a bulk string. -/
def execGeoHash (env : Env) (args : List Bytes) : Exec Reply := do
  check (args.length < 1) (.error "ERR wrong number of arguments for 'geohash' command")
  let key ← arg args 0
  let zset ← getAsZSet key
  let zset ← require zset .nullBulk
  return .multiBulk ((args.drop 1).map fun member =>
    match zset.get member with
    | none => "*0\r\n"
    | some score => env.geo.hashText score)

def radiusIn (env : Env) (unit : Bytes) (radius : UInt64) : Except Reply UInt64 :=
  if toLower unit = "m" then .ok radius
  else if toLower unit = "km" then .ok (env.geo.mul1000 radius)
  else .error unsupportedUnit

def geoRadius0 (env : Env) (zset : ZSetObj) (lat lng radius : UInt64) : Reply :=
  .multiBulk ((env.geo.neighbours lat lng radius).flatMap fun (lower, upper) =>
    (zset.range env.float (.score 0 lower false) (.score 0 upper false) 0 (-1) true).map Prod.fst)

def execGeoRadius (env : Env) (args : List Bytes) : Exec Reply := do
  check (args.length < 5) (.error "ERR wrong number of arguments for 'georadius' command")
  let key ← arg args 0
  let zset ← getAsZSet key
  let zset ← require zset .nullBulk
  let t₁ ← arg args 1
  let lng ← require (env.float.parse t₁) notFloat
  let t₂ ← arg args 2
  let lat ← require (env.float.parse t₂) notFloat
  let t₃ ← arg args 3
  let radius ← require (env.float.parse t₃) notFloat
  let unit ← arg args 4
  let radius ← orReply (radiusIn env unit radius)
  return geoRadius0 env zset lat lng radius

def execGeoRadiusByMember (env : Env) (args : List Bytes) : Exec Reply := do
  check (args.length < 3) (.error "ERR wrong number of arguments for 'georadiusbymember' command")
  let key ← arg args 0
  let zset ← getAsZSet key
  let zset ← require zset .nullBulk
  let member ← arg args 1
  let score ← require (zset.get member) .nullBulk
  let (lat, lng) := env.geo.decode score
  let t ← arg args 2
  let radius ← require (env.float.parse t) notFloat
  let radius ← orReply (radiusIn env (args[3]?.getD "m") radius)
  return geoRadius0 env zset lat lng radius

end Hayakv.Cmd
