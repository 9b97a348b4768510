import Hayakv.Lib.GoText
import Hayakv.Lib.GoTime

/-!
# Objects

The values behind keys, as `internal/object` and `internal/datastruct/stream` keep them: lists,
hashes, sets, sorted sets and streams, with the encoding each is in. A listpack, quicklist, dict or
skiplist is the list of its elements in the order in which it is walked; a Go map (the hashtable
encodings, field expiries, groups) is walked in the order of insertion. Where the two encodings of
a type fail differently, the operation is `none` for a Go panic.

`float64` is its bit pattern, with the operations of `FloatOps`, about which nothing is assumed. A
score kept as text in a listpack is the score.
-/

namespace Hayakv.Engine

/-- The floating-point operations of the language and of `strconv`. -/
structure FloatOps where
  /-- `strconv.ParseFloat(s, 64)`. -/
  parse : Bytes → Option UInt64
  /-- `strconv.FormatFloat(f, 'f', -1, 64)`. -/
  format : UInt64 → Bytes
  /-- `strconv.FormatFloat(f, 'f', 10, 64)`. -/
  format10 : UInt64 → Bytes
  add : UInt64 → UInt64 → UInt64
  lt : UInt64 → UInt64 → Bool
  eq : UInt64 → UInt64 → Bool
  /-- `int64(math.Round(d.Seconds()))` of a duration. -/
  roundSeconds : Int → Int

structure EncodingThresholds where
  hashMaxListpackEntries : Nat
  hashMaxListpackValue : Nat
  setMaxIntsetEntries : Nat
  setMaxListpackEntries : Nat
  setMaxListpackValue : Nat
  zsetMaxListpackEntries : Nat
  zsetMaxListpackValue : Nat
  listMaxListpackSize : Nat

def defaultEncodingThresholds : EncodingThresholds := ⟨128, 64, 512, 128, 64, 128, 64, 128⟩

inductive Encoding
  | int | embstr | raw | listpack | listpackEx | quicklist | intset | hashtable | skiplist | stream
deriving DecidableEq, Repr

def Encoding.name : Encoding → Bytes
  | .int => "int"
  | .embstr => "embstr"
  | .raw => "raw"
  | .listpack => "listpack"
  | .quicklist => "quicklist"
  | .intset => "intset"
  | .hashtable => "hashtable"
  | .skiplist => "skiplist"
  | .stream => "stream"
  | .listpackEx => "unknown"

/-! ## Integers -/

/-- The digits of `parseInt64`, read after the value `v`; `none` where it gives up. -/
def parseInt64Digits : Nat → Bytes → Option Nat
  | v, [] => some v
  | v, c :: s =>
    if c < 48 ∨ 57 < c then none
    else if v > (2 ^ 63 - 1 - (c.toNat - 48)) / 10 then none
    else parseInt64Digits (v * 10 + (c.toNat - 48)) s

/-- `parseInt64`; it answers 0 for a text that is no number. -/
def parseInt64 : Bytes → Int
  | [] => 0
  | 45 :: s => -((parseInt64Digits 0 s).getD 0 : Int)
  | 43 :: s => (parseInt64Digits 0 s).getD 0
  | s => (parseInt64Digits 0 s).getD 0

/-- `isInt`: the integer whose text `s` is. `formatInt64` is `itoa`. -/
def isInt (s : Bytes) : Option Int := if s ≠ [] ∧ itoa (parseInt64 s) = s then some (parseInt64 s) else none

/-- `strconv.ParseUint(s, 10, 64)`. -/
def parseUint (s : Bytes) : Option UInt64 :=
  (parseDigits s).bind fun n => if n < 2 ^ 64 then some (UInt64.ofNat n) else none

def bytesLt : Bytes → Bytes → Bool
  | _, [] => false
  | [], _ :: _ => true
  | a :: s, b :: t => a < b || (a == b && bytesLt s t)

/-- `sort.Strings`, and other sorts by a strict order. -/
def sortBy {α : Type} (lt : α → α → Bool) : List α → List α
  | [] => []
  | x :: xs => ins x (sortBy lt xs)
where
  ins (x : α) : List α → List α
    | [] => [x]
    | y :: ys => if lt y x then y :: ins x ys else x :: y :: ys

/-! ## Lists -/

structure ListObj where
  elems : List Bytes
  isListpack : Bool
deriving DecidableEq, Repr

namespace ListObj

def new : ListObj := ⟨[], true⟩

variable (l : ListObj)

def len : Nat := l.elems.length

variable (t : EncodingThresholds)

def grown (l : ListObj) : ListObj :=
  if l.isListpack && l.len > t.listMaxListpackSize then { l with isListpack := false } else l

def add (l : ListObj) (val : Bytes) : ListObj := grown t { l with elems := l.elems ++ [val] }

def insert (l : ListObj) (index : Nat) (val : Bytes) : ListObj :=
  grown t { l with elems := l.elems.take index ++ val :: l.elems.drop index }

def get (index : Nat) : Option Bytes := l.elems[index]?

/-- `Remove(0)`: a quicklist panics when it is empty. -/
def removeFirst : Option (Option Bytes × ListObj) :=
  match l.elems with
  | [] => if l.isListpack then some (none, l) else none
  | x :: xs => some (some x, { l with elems := xs })

def removeLast : Option Bytes × ListObj := (l.elems.getLast?, { l with elems := l.elems.dropLast })

def set (index : Nat) (val : Bytes) : ListObj := { l with elems := l.elems.set index val }

/-- `Range`, of `[start, stop)`: a quicklist panics when `start` is not in the list. -/
def range (start stop : Nat) : Option (List Bytes) :=
  if l.isListpack || (start < l.len && start ≤ stop && stop ≤ l.len) then
    some ((l.elems.take stop).drop start)
  else none

/-- Remove the first `count` elements equal to `val`. -/
def removeN (val : Bytes) : Nat → List Bytes → List Bytes
  | 0, xs => xs
  | _, [] => []
  | n + 1, x :: xs => if x = val then removeN val n xs else x :: removeN val (n + 1) xs

/-- `RemoveAllByVal`: a quicklist panics when it is empty. -/
def removeAllByVal (val : Bytes) : Option ListObj :=
  if l.isListpack || l.elems ≠ [] then some { l with elems := removeN val l.len l.elems } else none

def removeByVal (val : Bytes) (count : Nat) : ListObj := { l with elems := removeN val count l.elems }

/-- A quicklist stops when `removed == count`, so that a negative `count` is no bound. -/
def reverseRemoveByVal (val : Bytes) (count : Int) : ListObj :=
  let n := if l.isListpack || 0 < count then count.toNat else l.len
  { l with elems := (removeN val n l.elems.reverse).reverse }

def currentEncoding : Encoding := if l.isListpack then .listpack else .quicklist

end ListObj

/-! ## Hashes -/

/-- `m[field] = value` in a map: in its place, or at the end. -/
def putField {κ β : Type} [DecidableEq κ] (field : κ) (value : β) : List (κ × β) → List (κ × β)
  | [] => [(field, value)]
  | (f, v) :: fs => if f = field then (f, value) :: fs else (f, v) :: putField field value fs

/-- `delete(m, field)`. -/
def removeField {κ β : Type} [DecidableEq κ] (field : κ) (fs : List (κ × β)) : List (κ × β) := fs.filter (·.1 ≠ field)

section

variable {κ β : Type} [DecidableEq κ] [BEq κ] [LawfulBEq κ] (field k : κ) (value : β) (fs : List (κ × β))

theorem lookup_putField : (putField field value fs).lookup k = if k = field then some value else fs.lookup k := by
  induction fs with
  | nil => grind [putField]
  | cons p fs ih => grind [putField]

theorem lookup_removeField : (removeField field fs).lookup k = if k = field then none else fs.lookup k := by
  induction fs with
  | nil => simp [removeField]
  | cons p fs ih => grind [removeField]

end

structure HashObj where
  fields : List (Bytes × Bytes)
  isListpack : Bool
  fieldExpire : List (Bytes × Int)
deriving DecidableEq, Repr

namespace HashObj

def new : HashObj := ⟨[], true, []⟩

variable (h : HashObj)

def len : Nat := h.fields.length

def get (field : Bytes) : Option Bytes := h.fields.lookup field

variable (t : EncodingThresholds)

def maybeConvertToHashtable (h : HashObj) (field value : Bytes) : HashObj :=
  if h.len > t.hashMaxListpackEntries || field.length > t.hashMaxListpackValue ||
      value.length > t.hashMaxListpackValue then
    { h with isListpack := false }
  else h

/-- `Put`, with the number of fields added. -/
def put (h : HashObj) (field value : Bytes) : HashObj × Nat :=
  (maybeConvertToHashtable t { h with fields := putField field value h.fields } field value,
    if (h.get field).isSome then 0 else 1)

def putIfAbsent (h : HashObj) (field value : Bytes) : HashObj × Nat :=
  if (h.get field).isSome then (h, 0) else h.put t field value

/-- `Remove`. The field's expiry stays. -/
def remove (field : Bytes) : HashObj × Nat :=
  ({ h with fields := removeField field h.fields }, if (h.get field).isSome then 1 else 0)

def setFieldExpire (field : Bytes) (expireAtMs : Int) : HashObj :=
  { h with fieldExpire := putField field expireAtMs h.fieldExpire }

/-- `FieldExpire`. -/
def getFieldExpire (field : Bytes) : Option Int := h.fieldExpire.lookup field

/-- `PersistField`, with whether there was an expiry. -/
def persistField (field : Bytes) : HashObj × Bool :=
  ({ h with fieldExpire := removeField field h.fieldExpire }, (h.getFieldExpire field).isSome)

def expiredFields (nowMs : Int) : List Bytes := (h.fieldExpire.filter (·.2 ≤ nowMs)).map Prod.fst

def purgeExpiredFields (nowMs : Int) : HashObj :=
  { h with
    fields := h.fields.filter (·.1 ∉ h.expiredFields nowMs)
    fieldExpire := h.fieldExpire.filter (nowMs < ·.2) }

def currentEncoding : Encoding :=
  if h.isListpack then if h.fieldExpire = [] then .listpack else .listpackEx else .hashtable

end HashObj

/-! ## Sets -/

inductive SetEncoding
  | intset | listpack | hashtable
deriving DecidableEq, Repr

structure SetObj where
  members : List Bytes
  encoding : SetEncoding
deriving DecidableEq, Repr

namespace SetObj

def new : SetObj := ⟨[], .intset⟩

def len (s : SetObj) : Nat := s.members.length

def has (s : SetObj) (member : Bytes) : Bool := member ∈ s.members

variable (t : EncodingThresholds)

/-- `Add` to a listpack or a hashtable. -/
def addBytes (s : SetObj) (member : Bytes) : SetObj :=
  let s' := { s with members := s.members ++ [member] }
  if s.encoding = .listpack && (member.length > t.setMaxListpackValue || s'.len > t.setMaxListpackEntries) then
    { s' with encoding := .hashtable }
  else s'

/-- `Add`, with the number of members added. An intset keeps its members in order, and turns into a
listpack when it grows past its bound or gets a member that is no integer. -/
def add (s : SetObj) (member : Bytes) : SetObj × Nat :=
  if s.has member then
    match s.encoding, isInt member with
    | .intset, none => ({ s with encoding := .listpack }, 0)
    | _, _ => (s, 0)
  else
    match s.encoding, isInt member with
    | .intset, some v =>
      let members := sortBy.ins (fun a b => parseInt64 a < parseInt64 b) (itoa v) s.members
      if members.length > t.setMaxIntsetEntries then
        if members.length > t.setMaxListpackEntries then (⟨members, .hashtable⟩, 1)
        else (⟨members, .listpack⟩, 1)
      else (⟨members, .intset⟩, 1)
    | .intset, none => (addBytes t { s with encoding := .listpack } member, 1)
    | _, _ => (addBytes t s member, 1)

/-- `Remove`, with the number of members removed. -/
def remove (s : SetObj) (member : Bytes) : SetObj × Nat :=
  if s.has member then ({ s with members := s.members.filter (· ≠ member) }, 1) else (s, 0)

def addAll (s : SetObj) (members : List Bytes) : SetObj × Nat :=
  members.foldl (fun (s, n) m => let (s', k) := s.add t m; (s', n + k)) (s, 0)

def currentEncoding (s : SetObj) : Encoding :=
  match s.encoding with
  | .intset => .intset
  | .listpack => .listpack
  | .hashtable => .hashtable

end SetObj

/-! ## Sorted sets -/

structure ZSetObj where
  entries : List (Bytes × UInt64)
  isListpack : Bool
deriving DecidableEq, Repr

namespace ZSetObj

def new : ZSetObj := ⟨[], true⟩

variable (z : ZSetObj)

def len : Nat := z.entries.length

def get (member : Bytes) : Option UInt64 := z.entries.lookup member

/-- `Add`, with whether the member is new. Only a new member turns a listpack into a skiplist. -/
def add (t : EncodingThresholds) (z : ZSetObj) (member : Bytes) (score : UInt64) : ZSetObj × Bool :=
  let z' := { z with entries := putField member score z.entries }
  if (z.get member).isSome then (z', false)
  else if z.isListpack && (member.length > t.zsetMaxListpackValue || z'.len > t.zsetMaxListpackEntries)
  then ({ z' with isListpack := false }, true)
  else (z', true)

variable (f : FloatOps)

/-- By score, then by member. -/
def entryLt (a b : Bytes × UInt64) : Bool := if f.eq a.2 b.2 then bytesLt a.1 b.1 else f.lt a.2 b.2

/-- `collectSorted`, and the order of a skiplist without a NaN so far. -/
def sorted : List (Bytes × UInt64) := sortBy (entryLt f) z.entries

/-- `ForEach`: a listpack is walked in the order of insertion, and an empty skiplist panics. -/
def walk : Option (List (Bytes × UInt64)) :=
  if z.isListpack then some z.entries else if z.entries = [] then none else some (z.sorted f)

def removeAll (members : List Bytes) : ZSetObj := { z with entries := z.entries.filter (·.1 ∉ members) }

/-- The members from the lowest score up, or from the highest down. -/
def ranked (desc : Bool) : List (Bytes × UInt64) := if desc then (z.sorted f).reverse else z.sorted f

/-- `RangeByRank`, of `[start, stop)`: a skiplist panics when `start` is not a rank. -/
def rangeByRank (start stop : Nat) (desc : Bool) : Option (List (Bytes × UInt64)) :=
  if z.isListpack || (start < z.len && start ≤ stop && stop ≤ z.len) then
    some (((z.ranked f desc).take stop).drop start)
  else none

def getRank (member : Bytes) (desc : Bool) : Option Nat := (z.ranked f desc).findIdx? (·.1 = member)

/-- `RemoveByRank`, of `[start, stop)`. -/
def removeByRank (start stop : Nat) : ZSetObj × Nat :=
  let gone := ((z.sorted f).take stop).drop start
  (z.removeAll (gone.map Prod.fst), gone.length)

def currentEncoding : Encoding := if z.isListpack then .listpack else .skiplist

end ZSetObj

/-- `Border`: a bound on scores or on members. The value of an infinite score border is 0. -/
inductive Border
  | score (inf : Int) (value : UInt64) (exclude : Bool)
  | lex (inf : Int) (value : Bytes) (exclude : Bool)
deriving DecidableEq, Repr

namespace Border

/-- `greater`: whether an element is within an upper border. -/
def greater (f : FloatOps) : Border → Bytes × UInt64 → Bool
  | .score inf value exclude, (_, s) =>
    if inf = -1 then false else if inf = 1 then true
    else if exclude then f.lt s value else f.lt s value || f.eq value s
  | .lex inf value exclude, (m, _) =>
    if inf = -1 then false else if inf = 1 then true
    else if exclude then bytesLt m value else bytesLt m value || m = value

/-- `less`: whether an element is within a lower border. -/
def less (f : FloatOps) : Border → Bytes × UInt64 → Bool
  | .score inf value exclude, (_, s) =>
    if inf = -1 then true else if inf = 1 then false
    else if exclude then f.lt value s else f.lt value s || f.eq value s
  | .lex inf value exclude, (m, _) =>
    if inf = -1 then true else if inf = 1 then false
    else if exclude then bytesLt value m else bytesLt value m || m = value

/-- `isIntersected`: despite its name, whether the borders exclude every element. It looks at the
values of infinite borders too. -/
def isIntersected (f : FloatOps) : Border → Border → Bool
  | .score _ v₁ x₁, .score _ v₂ x₂ => f.lt v₂ v₁ || (f.eq v₁ v₂ && (x₁ || x₂))
  | .lex i v₁ x₁, .lex _ v₂ x₂ => i = 1 || bytesLt v₂ v₁ || (v₁ = v₂ && (x₁ || x₂))
  | _, _ => false

def negInf : Border := .score (-1) 0 false
def posInf : Border := .score 1 0 false

end Border

namespace ZSetObj

def inside (f : FloatOps) (lo hi : Border) (e : Bytes × UInt64) : Bool := lo.less f e && hi.greater f e

/-- `hasInRange` of a skiplist. -/
def hasInRange (f : FloatOps) (es : List (Bytes × UInt64)) (lo hi : Border) : Bool :=
  !lo.isIntersected f hi && es.getLast?.any (lo.less f) && es.head?.any (hi.greater f)

def fromRange (f : FloatOps) (es : List (Bytes × UInt64)) (lo hi : Border) (desc : Bool) : List (Bytes × UInt64) :=
  if !hasInRange f es lo hi then []
  else if desc then
    let up := es.takeWhile (hi.greater f)
    if up.getLast?.any (lo.less f) then up.reverse else []
  else
    let rest := es.dropWhile fun e => !lo.less f e
    if rest.head?.any (hi.greater f) then rest else []

/-- At most `limit` elements; all for a negative one. -/
def limitTo (limit : Int) (es : List (Bytes × UInt64)) : List (Bytes × UInt64) :=
  if limit < 0 then es else es.take limit.toNat

/-- `Range`. A skiplist does not check the borders at the element after the offset. -/
def range (f : FloatOps) (z : ZSetObj) (lo hi : Border) (offset limit : Int) (desc : Bool) : List (Bytes × UInt64) :=
  if offset < 0 then []
  else if z.isListpack then
    limitTo limit (((z.ranked f desc).filter (inside f lo hi)).drop offset.toNat)
  else if limit = 0 then []
  else
    match (fromRange f (z.sorted f) lo hi desc).drop offset.toNat with
    | [] => []
    | e :: es => limitTo limit (e :: es.takeWhile (inside f lo hi))

/-- The count of `RangeCount` on a skiplist. -/
def countInside (f : FloatOps) (lo hi : Border) : List (Bytes × UInt64) → Nat
  | [] => 0
  | e :: es =>
    if !lo.less f e then countInside f lo hi es
    else if !hi.greater f e then 0
    else countInside f lo hi es + 1

/-- `RangeCount`: an empty skiplist panics. -/
def rangeCount (f : FloatOps) (z : ZSetObj) (lo hi : Border) : Option Nat :=
  if z.isListpack then some ((z.sorted f).countP (inside f lo hi))
  else if z.entries = [] then none
  else some (countInside f lo hi (z.sorted f))

/-- `RemoveRange`, with the number of elements removed. -/
def removeRange (f : FloatOps) (z : ZSetObj) (lo hi : Border) : ZSetObj × Nat :=
  let gone :=
    if z.isListpack then (z.sorted f).filter (inside f lo hi)
    else ((z.sorted f).dropWhile fun e => !lo.less f e).takeWhile (hi.greater f)
  (z.removeAll (gone.map Prod.fst), gone.length)

/-- `PopMin`: a listpack panics for a negative count, a skiplist removes everything for one that is
not positive. -/
def popMin (f : FloatOps) (z : ZSetObj) (count : Int) : Option (ZSetObj × List (Bytes × UInt64)) :=
  let gone :=
    if z.isListpack then
      if count < 0 then none else some ((z.sorted f).take count.toNat)
    else some (if 0 < count then (z.sorted f).take count.toNat else z.sorted f)
  gone.map fun gone => (z.removeAll (gone.map Prod.fst), gone)

end ZSetObj

/-! ## Streams -/

structure StreamID where
  ms : UInt64
  seq : UInt64
deriving DecidableEq, Repr

namespace StreamID

def zero : StreamID := ⟨0, 0⟩

/-- `StreamID{maxMs, maxSeq}`. -/
def max : StreamID := ⟨0xFFFFFFFFFFFFFFFF, 0xFFFFFFFFFFFFFFFF⟩

def greater (a b : StreamID) : Bool := b.ms < a.ms || (a.ms == b.ms && b.seq < a.seq)

/-- `String`. -/
def text (id : StreamID) : Bytes := itoa id.ms.toNat ++ 45 :: itoa id.seq.toNat

/-- `ParseID`, with whether the sequence number is to be assigned. -/
def parse (s : Bytes) : Option (StreamID × Bool) :=
  if s = "+" then some (.max, false)
  else if s = "-" then some (.zero, false)
  else
    (parseUint (s.takeWhile (· ≠ 45))).bind fun ms =>
      match s.dropWhile (· ≠ 45) with
      | [] => some (⟨ms, 0⟩, false)
      | _ :: seq =>
        if seq = "*" then some (⟨ms, 0⟩, true)
        else (parseUint seq).map fun seq => (⟨ms, seq⟩, false)

end StreamID

structure PendingEntry where
  consumer : Bytes
  deliveryTime : Int
  deliveryCount : UInt64
deriving DecidableEq, Repr

structure Consumer where
  pending : List (StreamID × Nat)
  activeTime : Int
deriving DecidableEq, Repr

/-- `Group`. The pending lists of the group and of its consumers hold pointers to entries, which
are indices into `pendingEntries`. -/
structure Group where
  lastDelivered : StreamID
  entriesRead : UInt64
  pendingEntries : List PendingEntry
  pending : List (StreamID × Nat)
  consumers : List (Bytes × Consumer)
deriving DecidableEq, Repr

structure Entry where
  id : StreamID
  fields : List (Bytes × Bytes)
deriving DecidableEq, Repr

structure StreamObj where
  entries : List Entry
  lastID : StreamID
  maxDeletedID : StreamID
  entriesAdded : UInt64
  length : UInt64
  groups : List (Bytes × Group)
deriving DecidableEq, Repr

namespace StreamObj

def new : StreamObj := ⟨[], .zero, .zero, 0, 0, []⟩

variable (s : StreamObj)

/-- `Add`; the error is its text. -/
def add (id : StreamID) (fields : List (Bytes × Bytes)) : Except Bytes StreamObj :=
  if id = .zero then .error "ERR The ID specified in XADD must be greater than 0-0"
  else if !id.greater s.lastID then
    .error "ERR The ID specified in XADD is equal or smaller than the target stream top item"
  else .ok { s with
    entries := s.entries ++ [⟨id, fields⟩]
    lastID := id
    entriesAdded := s.entriesAdded + 1
    length := s.length + 1 }

/-- The ID that `AddAutoAssign` chooses. -/
def autoID (msHint : UInt64) : StreamID :=
  if msHint ≤ s.lastID.ms then ⟨s.lastID.ms, s.lastID.seq + 1⟩ else ⟨msHint, 0⟩

/-- The entries of `[start, stop]`. -/
def inRange (start stop : StreamID) : List Entry :=
  s.entries.filter fun e =>
    (start = .zero || !start.greater e.id) && (stop = .max || !e.id.greater stop)

/-- At most `count` entries; all for `count ≤ 0`. -/
def limit (count : Int) (es : List Entry) : List Entry := if 0 < count then es.take count.toNat else es

def range (start stop : StreamID) (count : Int) : List Entry := limit count (s.inRange start stop)

def revRange (start stop : StreamID) (count : Int) : List Entry := limit count (s.inRange start stop).reverse

/-- The greatest of `id` and the IDs of the entries. -/
def maxID (id : StreamID) (es : List Entry) : StreamID := es.foldl (fun m e => if e.id.greater m then e.id else m) id

/-- `Delete`, with the number of entries deleted. -/
def delete (ids : List StreamID) : StreamObj × Nat :=
  let deleted := s.entries.filter (·.id ∈ ids)
  ({ s with
      entries := s.entries.filter (·.id ∉ ids)
      maxDeletedID := maxID s.maxDeletedID deleted
      length := s.length - UInt64.ofNat deleted.length }, deleted.length)

/-- `TrimMaxLen`, with the number of entries removed. -/
def trimMaxLen (maxLen : Int) (approx : Bool) : StreamObj × Nat :=
  if maxLen ≤ 0 ∨ (s.entries.length : Int) ≤ maxLen then (s, 0)
  else
    let excess := s.entries.length - maxLen.toNat
    if approx && excess ≤ 100 then (s, 0)
    else
      let toRemove := if approx then excess - excess % 100 else excess
      ({ s with
          entries := s.entries.drop toRemove
          length := s.length - UInt64.ofNat toRemove
          maxDeletedID := match (s.entries.take toRemove).getLast? with
            | some e => if e.id.greater s.maxDeletedID then e.id else s.maxDeletedID
            | none => s.maxDeletedID }, toRemove)

/-- `TrimMinID`, with the number of entries removed. `maxDeletedID` advances also when an
approximate trim then removes nothing. -/
def trimMinID (minID : StreamID) (approx : Bool) : StreamObj × Nat :=
  let keep := s.entries.filter fun e => e.id.greater minID || e.id = minID
  let gone := s.entries.filter fun e => !(e.id.greater minID || e.id = minID)
  let s' := { s with maxDeletedID := maxID s.maxDeletedID gone }
  if approx && gone.length < 100 then (s', 0)
  else ({ s' with entries := keep, length := s.length - UInt64.ofNat gone.length }, gone.length)

def setID (id : StreamID) (entriesAdded : UInt64) (maxDeletedID : StreamID) : StreamObj :=
  { s with
    lastID := id
    entriesAdded := if 0 < entriesAdded then entriesAdded else s.entriesAdded
    maxDeletedID := if maxDeletedID.greater s.maxDeletedID then maxDeletedID else s.maxDeletedID }

def len : Int := wrap64 s.length.toNat

def getGroup (name : Bytes) : Option Group := s.groups.lookup name

def setGroup (name : Bytes) (g : Group) : StreamObj := { s with groups := putField name g s.groups }

end StreamObj

namespace Group

def new (startID : StreamID) : Group := ⟨startID, 0, [], [], []⟩

variable (g : Group)

def getOrCreateConsumer (name : Bytes) : Group :=
  match g.consumers.lookup name with
  | some _ => g
  | none => { g with consumers := g.consumers ++ [(name, ⟨[], 0⟩)] }

def modifyConsumer (name : Bytes) (f : Consumer → Consumer) : Group :=
  { g with consumers := g.consumers.map fun (n, c) => if n = name then (n, f c) else (n, c) }

def pendingEntry (id : StreamID) : Option (Nat × PendingEntry) :=
  (g.pending.lookup id).bind fun p => g.pendingEntries[p]?.map fun pe => (p, pe)

def addPending (id : StreamID) (pe : PendingEntry) : Group :=
  let p := g.pendingEntries.length
  ({ g with
      pendingEntries := g.pendingEntries ++ [pe]
      pending := putField id p g.pending }).modifyConsumer pe.consumer fun c =>
    { c with pending := putField id p c.pending }

/-- `ReadNew`: the entries delivered. -/
def readNew (s : StreamObj) (consumer : Bytes) (count now : Int) : Group × List Entry :=
  let start : StreamID := if g.lastDelivered = .zero then .zero else ⟨g.lastDelivered.ms, g.lastDelivered.seq + 1⟩
  let entries := s.range start .max count
  if entries = [] then (g, [])
  else
    let g' := entries.foldl (fun g e =>
      let g := (g.addPending e.id ⟨consumer, now, 1⟩).modifyConsumer consumer fun c =>
        { c with activeTime := now }
      { g with lastDelivered := if e.id.greater g.lastDelivered then e.id else g.lastDelivered })
      (g.getOrCreateConsumer consumer)
    ({ g' with entriesRead := g'.entriesRead + UInt64.ofNat entries.length }, entries)

/-- `ReadPending`: IDs pending for the consumer, the greatest first. -/
def readPending (consumer : Bytes) (start stop : StreamID) (count : Int) : List StreamID :=
  match g.consumers.lookup consumer with
  | none => []
  | some c =>
    let ids := (c.pending.filter fun (id, p) =>
      (g.pendingEntries[p]?).any (·.consumer = consumer) &&
        (id.greater start || id = start) && !id.greater stop).map Prod.fst
    let sorted := sortBy StreamID.greater ids
    if 0 < count then sorted.take count.toNat else sorted

/-- `Ack`, with the number of entries acknowledged. -/
def ack (ids : List StreamID) : Group × Nat :=
  ids.foldl (fun (g, n) id =>
    match g.pendingEntry id with
    | none => (g, n)
    | some (_, pe) =>
      (({ g with pending := removeField id g.pending }).modifyConsumer pe.consumer fun c =>
        { c with pending := removeField id c.pending }, n + 1)) (g, 0)

/-- `Claim`: the IDs claimed. -/
def claim (newConsumer : Bytes) (minIdleTime : Int) (ids : List StreamID) (force : Bool)
    (now : Int) : Group × List StreamID :=
  ids.foldl (fun (g, claimed) id =>
    let active := fun (g : Group) => g.modifyConsumer newConsumer fun c => { c with activeTime := now }
    match g.pendingEntry id with
    | none =>
      if force then (active (g.addPending id ⟨newConsumer, now, 1⟩), claimed ++ [id]) else (g, claimed)
    | some (p, pe) =>
      if !force && wrap64 (now - pe.deliveryTime) < minIdleTime then (g, claimed)
      else
        let g := g.modifyConsumer pe.consumer fun c => { c with pending := removeField id c.pending }
        let g := { g with
          pendingEntries := g.pendingEntries.set p ⟨newConsumer, now, pe.deliveryCount + 1⟩ }
        (active (g.modifyConsumer newConsumer fun c => { c with pending := putField id p c.pending }),
          claimed ++ [id])) (g.getOrCreateConsumer newConsumer, [])

def lag (entriesAdded : UInt64) : UInt64 := if entriesAdded < g.entriesRead then 0 else entriesAdded - g.entriesRead

def restorePending (id : StreamID) (consumer : Bytes) (deliveryTime : Int) (deliveryCount : UInt64) : Group :=
  (g.getOrCreateConsumer consumer).addPending id ⟨consumer, deliveryTime, deliveryCount⟩

end Group

/-- A value that is changed in place through its pointer. -/
inductive Coll
  | list (l : ListObj)
  | hash (h : HashObj)
  | set (s : SetObj)
  | zset (z : ZSetObj)
  | stream (s : StreamObj)
deriving DecidableEq, Repr

/-- What a command sees of a value: a string's bytes (`none` for a nil slice) and its encoding, or
a structure. -/
inductive Value
  | str (enc : Encoding) (bytes : Option Bytes)
  | coll (c : Coll)
deriving DecidableEq, Repr

def Value.typeName : Value → Bytes
  | .str .. => Hayakv.str "string"
  | .coll (.list _) => Hayakv.str "list"
  | .coll (.hash _) => Hayakv.str "hash"
  | .coll (.set _) => Hayakv.str "set"
  | .coll (.zset _) => Hayakv.str "zset"
  | .coll (.stream _) => Hayakv.str "stream"

end Hayakv.Engine
