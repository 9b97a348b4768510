import Hayakv.Resp.ParserV2

/-!
# The incremental request parser of the event loop

`internal/net/eventloop/reqparser.go`. An argument is a slice of the buffer that is
parsed, here a `Span` of it, and `none` where the code makes it `nil`. Where the
buffer ends inside a command the parser answers `errIncomplete`, and `parseRequests`
then gives the commands before it and how many bytes they took. `feed` appends a
chunk, parses, and keeps what was not consumed.

What has been found out about a buffer stays so when bytes follow it, and so a buffer
that ends early is incomplete and never wrong (`parseOneMultibulk_stays`). So any
division of a stream of requests gives back the requests (`feedAll_log`), as the
two other parsers of the repository do on the whole stream.
-/

namespace Hayakv.Net

open Resp (crlf bulk Request CmdLine)
open List

/-- Why the parser gives no command: `errIncomplete`, `errProtocolError`, or a slice out of
range. -/
inductive Stop
  | incomplete
  | protocol
  | panic
deriving DecidableEq, Repr

/-- The largest Go `int`. -/
def maxInt : Nat := 2 ^ 63 - 1

/-- The loop of `parseUint`. -/
def parseUintFrom (n : Nat) : Bytes → Option Nat
  | [] => some n
  | b :: s =>
    if b < 48 ∨ 57 < b then none
    else
      let digit := (b - 48).toNat
      if (maxInt - digit) / 10 < n then none else parseUintFrom (n * 10 + digit) s

/-- `parseUint`: digits whose value is a Go `int`. -/
def parseUint (buf : Bytes) : Option Nat := if buf = [] then none else parseUintFrom 0 buf

/-- `bytes.Index(buf, []byte("\r\n"))`. -/
def indexCrlf : Bytes → Option Nat
  | [] => none
  | b :: s => if b = 13 ∧ s.head? = some 10 then some 0 else (indexCrlf s).map (· + 1)

/-- `readLine`: the line, and its length with its end; `none` is `errIncomplete`. -/
def readLine (buf : Bytes) : Option (Bytes × Nat) := (indexCrlf buf).map fun idx => (buf.take idx, idx + 2)

/-- The slice `buf[start : start+len]` of a buffer. -/
structure Span where
  start : Nat
  len : Nat
deriving DecidableEq, Repr

def Span.read (buf : Bytes) (s : Span) : Bytes := (buf.drop s.start).take s.len

/-- A slice of `buf[offset:]` as a slice of `buf`. -/
def Span.shift (offset : Nat) (s : Span) : Span := { s with start := offset + s.start }

/-- The arguments of a parsed command: slices of the buffer. -/
abbrev Args := List (Option Span)

def Args.read (buf : Bytes) (args : Args) : List (Option Bytes) := args.map (Option.map (Span.read buf))

/-- One round of the loop of `parseOneMultibulk`: an argument, and what is consumed with it. -/
def parseArg (buf : Bytes) (consumed : Nat) : Except Stop (Option Span × Nat) :=
  match buf.drop consumed with
  | [] => .error .incomplete
  | b :: rest =>
    if b ≠ 36 then .error .protocol
    else
      match readLine rest with
      | none => .error .incomplete
      | some (argLine, argLineLen) =>
        let consumed := consumed + (argLineLen + 1)
        if argLine.head? = some 45 then
          -- only -1, the null bulk string, is valid
          if argLine ≠ [45, 49] then .error .protocol else .ok (none, consumed)
        else
          match parseUint argLine with
          | none => .error .protocol
          | some argLen =>
            -- beyond the Go integers the sum is negative, and the slice out of range
            if maxInt < consumed + argLen + 2 then .error .panic
            else if buf.length < consumed + argLen + 2 then .error .incomplete
            else .ok (some ⟨consumed, argLen⟩, consumed + argLen + 2)

/-- The loop of `parseOneMultibulk`. -/
def parseArgs (buf : Bytes) : Nat → Nat → Args → Except Stop (Args × Nat)
  | 0, consumed, args => .ok (args, consumed)
  | n + 1, consumed, args =>
    match parseArg buf consumed with
    | .error e => .error e
    | .ok (arg, consumed) => parseArgs buf n consumed (args ++ [arg])

/-- `parseOneMultibulk`: the arguments and the bytes they take. -/
def parseOneMultibulk (buf : Bytes) : Except Stop (Args × Nat) :=
  match buf with
  | [] => .error .incomplete
  | b :: rest =>
    if b ≠ 42 then .error .protocol
    else
      match readLine rest with
      | none => .error .incomplete
      | some (line, lineLen) =>
        match parseUint line with
        | none => .error .protocol
        | some count => parseArgs buf count (lineLen + 1) []

/-- The loop of `parseRequests`, from `offset` on; a command takes a byte at least. -/
def parseFrom (buf : Bytes) : Nat → Nat → List Args → Except Stop (List Args × Nat)
  | 0, offset, cmds => .ok (cmds, offset)
  | fuel + 1, offset, cmds =>
    if buf.length ≤ offset then .ok (cmds, offset)
    else
      match parseOneMultibulk (buf.drop offset) with
      | .error .incomplete => .ok (cmds, offset)
      | .error e => .error e
      | .ok (cmd, consumed) =>
        parseFrom buf fuel (offset + consumed) (cmds ++ [cmd.map (Option.map (Span.shift offset))])

/-- `parseRequests`: the complete commands and the bytes consumed. -/
def parseRequests (buf : Bytes) : Except Stop (List Args × Nat) := parseFrom buf buf.length 0 []

/-- A chunk arrives: the commands that are now complete, and the buffer that is left. -/
def feed (buf chunk : Bytes) : Except Stop (List (List (Option Bytes)) × Bytes) :=
  match parseRequests (buf ++ chunk) with
  | .error e => .error e
  | .ok (cmds, consumed) => .ok (cmds.map (Args.read (buf ++ chunk)), (buf ++ chunk).drop consumed)

def feedAll : Bytes → List Bytes → Except Stop (List (List (Option Bytes)) × Bytes)
  | buf, [] => .ok ([], buf)
  | buf, chunk :: chunks =>
    match feed buf chunk with
    | .error e => .error e
    | .ok (cmds, buf) =>
      match feedAll buf chunks with
      | .error e => .error e
      | .ok (later, buf) => .ok (cmds ++ later, buf)

/-! ## Lines and numbers -/

theorem indexCrlf_append {l : Bytes} (h : (13 : UInt8) ∉ l) (rest : Bytes) :
    indexCrlf (l ++ crlf ++ rest) = some l.length := by
  induction l with
  | nil => simp [indexCrlf, crlf]
  | cons b l ih =>
    rw [mem_cons, not_or] at h
    rw [cons_append, cons_append, indexCrlf, if_neg (fun hc => h.1 hc.1.symm), ih h.2]
    rfl

theorem readLine_append {l : Bytes} (h : (13 : UInt8) ∉ l) (rest : Bytes) :
    readLine (l ++ crlf ++ rest) = some (l, l.length + 2) := by
  rw [readLine, indexCrlf_append h, append_assoc]
  simp

variable {p q : Bytes}

theorem indexCrlf_append_right {k : Nat} (h : indexCrlf p = some k) (q : Bytes) :
    indexCrlf (p ++ q) = some k ∧ k + 2 ≤ p.length := by
  induction p generalizing k with
  | nil => cases h
  | cons b p ih =>
    rw [indexCrlf] at h
    rw [cons_append, indexCrlf]
    by_cases hend : b = 13 ∧ p.head? = some 10
    · rw [if_pos hend] at h
      cases h
      cases p with
      | nil => simp at hend
      | cons d p =>
        rw [if_pos (by simpa using hend)]
        simp
    · rw [if_neg hend, Option.map_eq_some_iff] at h
      obtain ⟨j, hj, rfl⟩ := h
      obtain ⟨happ, hle⟩ := ih hj
      have hhead : (p ++ q).head? = p.head? := head?_append_of_ne_nil p fun hnil => by rw [hnil] at hle; simp at hle
      rw [hhead, if_neg hend, happ, length_cons]
      exact ⟨rfl, by omega⟩

theorem readLine_append_right {p line : Bytes} {k : Nat} (h : readLine p = some (line, k)) (q : Bytes) :
    readLine (p ++ q) = some (line, k) ∧ 2 ≤ k ∧ k ≤ p.length := by
  rw [readLine, Option.map_eq_some_iff] at h
  obtain ⟨idx, hidx, heq⟩ := h
  obtain ⟨rfl, rfl⟩ := Prod.mk.inj heq
  obtain ⟨happ, hle⟩ := indexCrlf_append_right hidx q
  refine ⟨?_, by omega, hle⟩
  rw [readLine, happ, Option.map_some, take_append_of_le_length (by omega)]

theorem le_digitsValue (n : Nat) (s : Bytes) : n ≤ digitsValue n s := by
  induction s generalizing n with
  | nil => exact le_refl n
  | cons b s ih =>
    have := ih (10 * n + (b.toNat - 48))
    rw [digitsValue] at this ⊢
    rw [foldl_cons]
    omega

theorem parseUintFrom_digits {s : Bytes} {n : Nat} (hs : s.all isDigit)
    (h : digitsValue n s ≤ maxInt) : parseUintFrom n s = some (digitsValue n s) := by
  induction s generalizing n with
  | nil => rfl
  | cons b s ih =>
    rw [all_cons, Bool.and_eq_true] at hs
    have hb : 48 ≤ b ∧ b ≤ 57 := by simpa [isDigit] using hs.1
    have hval : digitsValue n (b :: s) = digitsValue (n * 10 + (b - 48).toNat) s := by
      rw [UInt8.toNat_sub_of_le b 48 hb.1, mul_comm n]
      rfl
    have hle := le_digitsValue (n * 10 + (b - 48).toNat) s
    rw [hval] at h ⊢
    rw [parseUintFrom, if_neg (by simp only [not_or, UInt8.not_lt]; exact hb)]
    rw [if_neg (by omega), ih hs.2 h]

theorem parseUint_itoa {n : Nat} (h : n ≤ maxInt) : parseUint (itoa n) = some n := by
  obtain ⟨d, ds, heq, hall, hval⟩ := digits_spec (Nat.lt_succ_self n) []
  have hitoa : itoa n = d :: ds := by
    rw [itoa, if_pos (by omega), Int.toNat_natCast, heq, append_nil]
  have h0 : digitsValue 0 (d :: ds) = n := by rw [hval]; omega
  rw [parseUint, if_neg (itoa_ne_nil n), hitoa, parseUintFrom_digits hall (by omega), h0]

/-! ## One command -/

/-- The slices of the arguments of a command whose first bulk string starts at `pos`. -/
def spans (pos : Nat) : CmdLine → Args
  | [] => []
  | arg :: args =>
    some ⟨pos + ((itoa arg.length).length + 3), arg.length⟩ :: spans (pos + (bulk arg).length) args

theorem length_bulk_eq (arg : Bytes) : (bulk arg).length = (itoa arg.length).length + 3 + arg.length + 2 := by
  simp only [bulk, crlf, cons_append, length_cons, length_append, length_nil]
  omega

theorem parseArg_bulk (p : Bytes) (arg rest : Bytes) (h : p.length + (bulk arg).length ≤ maxInt) :
    parseArg (p ++ bulk arg ++ rest) p.length = .ok (some ⟨p.length + ((itoa arg.length).length + 3), arg.length⟩,
        p.length + (bulk arg).length) := by
  have hdrop : (p ++ bulk arg ++ rest).drop p.length = 36 :: (itoa arg.length ++ crlf ++ (arg ++ crlf ++ rest)) := by
    simp [bulk]
  have hlen := length_bulk_eq arg
  have hhead : (itoa arg.length).head? ≠ some 45 := fun hc => by
    have hmem := mem_of_head? hc
    exact absurd (isDigit_of_mem_digits (Nat.lt_succ_self _) hmem) (by decide)
  rw [parseArg, hdrop]
  dsimp only
  rw [if_neg (by simp), readLine_append (Resp.V2.thirteen_notMem_itoa _)]
  dsimp only
  rw [if_neg hhead, parseUint_itoa (by omega)]
  dsimp only
  rw [if_neg (by omega), if_neg (by simp only [length_append]; omega)]
  congr 2
  omega

theorem parseArgs_bulks (args : CmdLine) (p rest : Bytes) (acc : Args)
    (h : p.length + (args.flatMap bulk).length ≤ maxInt) :
    parseArgs (p ++ args.flatMap bulk ++ rest) args.length p.length acc =
      .ok (acc ++ spans p.length args, p.length + (args.flatMap bulk).length) := by
  induction args generalizing p acc with
  | nil => simp [parseArgs, spans]
  | cons arg args ih =>
    rw [flatMap_cons, length_append] at h
    have hassoc : p ++ (arg :: args).flatMap bulk ++ rest = p ++ bulk arg ++ (args.flatMap bulk ++ rest) := by simp
    have hrest : p ++ bulk arg ++ (args.flatMap bulk ++ rest) =
        (p ++ bulk arg) ++ args.flatMap bulk ++ rest := by simp
    rw [hassoc, length_cons, parseArgs, parseArg_bulk p arg _ (by omega)]
    dsimp only
    rw [hrest, ← length_append, ih _ _ (by rw [length_append]; omega), spans,
      length_append, flatMap_cons, length_append, add_assoc]
    simp

theorem read_spans (args : CmdLine) (p rest : Bytes) :
    Args.read (p ++ args.flatMap bulk ++ rest) (spans p.length args) = args.map some := by
  induction args generalizing p with
  | nil => rfl
  | cons arg args ih =>
    have hassoc : p ++ (arg :: args).flatMap bulk ++ rest = (p ++ bulk arg) ++ args.flatMap bulk ++ rest := by simp
    have hhead : Span.read (p ++ (arg :: args).flatMap bulk ++ rest)
        ⟨p.length + ((itoa arg.length).length + 3), arg.length⟩ = arg := by
      have hsplit : p ++ (arg :: args).flatMap bulk ++ rest =
          (p ++ (36 :: itoa arg.length ++ crlf)) ++ (arg ++ (crlf ++ args.flatMap bulk ++ rest)) := by
        simp [bulk]
      have hlen : p.length + ((itoa arg.length).length + 3) =
          (p ++ (36 :: itoa arg.length ++ crlf)).length := by simp [crlf]
      rw [Span.read, hsplit, hlen, drop_left, take_left]
    have htail := ih (p ++ bulk arg)
    rw [length_append, ← hassoc] at htail
    rw [spans, Args.read, map_cons, Option.map_some, hhead, map_cons]
    exact congrArg _ htail

def headerLen (r : Request) : Nat := (itoa r.args.length).length + 3

theorem parseOneMultibulk_encode (r : Request) (rest : Bytes) :
    parseOneMultibulk (r.encode ++ rest) = .ok (spans (headerLen r) r.args, r.encode.length) ∧
      Args.read (r.encode ++ rest) (spans (headerLen r) r.args) = r.args.map some := by
  have hp : (42 :: itoa r.args.length ++ crlf).length = headerLen r := by simp [headerLen, crlf]
  have hsplit : r.encode ++ rest = (42 :: itoa r.args.length ++ crlf) ++ r.args.flatMap bulk ++ rest := by
    simp [Request.encode, Resp.toBytes]
  have hcons : (42 :: itoa r.args.length ++ crlf) ++ r.args.flatMap bulk ++ rest =
      42 :: (itoa r.args.length ++ crlf ++ (r.args.flatMap bulk ++ rest)) := by simp
  have hfits := r.fits
  have hlen := r.length_encode
  rw [Request.encode] at hlen
  constructor
  · rw [hsplit, hcons, parseOneMultibulk, if_neg (by simp), readLine_append (Resp.V2.thirteen_notMem_itoa _)]
    dsimp only
    have hcount : r.args.length ≤ maxInt := by have := r.length_args_lt; rw [maxInt]; omega
    rw [parseUint_itoa hcount]
    have hmax : (42 :: itoa r.args.length ++ crlf).length + (r.args.flatMap bulk).length ≤ maxInt := by
      rw [hp, headerLen, maxInt]
      omega
    have hargs := parseArgs_bulks r.args (42 :: itoa r.args.length ++ crlf) rest [] hmax
    rw [hp, nil_append] at hargs
    rw [← hcons]
    refine hargs.trans ?_
    rw [Request.encode, hlen, headerLen]
  · rw [hsplit, ← hp, read_spans]

/-! ## Buffers that end early -/

def Span.Within (n : Nat) (s : Span) : Prop := s.start + s.len ≤ n

/-- Every argument that is a slice ends before `n`. -/
def Args.Within (n : Nat) (args : Args) : Prop := ∀ arg ∈ args, ∀ s ∈ arg, Span.Within n s

/-- What has been found out about a buffer stays so when bytes follow. -/
theorem parseArg_stays {c : Nat} (h : parseArg p c ≠ .error .incomplete) (q : Bytes) :
    parseArg (p ++ q) c = parseArg p c := by
  cases hdrop : p.drop c with
  | nil => exact absurd (by rw [parseArg, hdrop]) h
  | cons b rest =>
    have hc : c ≤ p.length := by
      by_contra hlt
      rw [drop_eq_nil_of_le (by omega)] at hdrop
      cases hdrop
    rw [parseArg, hdrop] at h
    rw [parseArg, parseArg, drop_append_of_le_length hc, hdrop]
    dsimp only [cons_append] at h ⊢
    split
    · rfl
    rename_i hb
    rw [if_neg hb] at h
    cases hline : readLine rest with
    | none => exact absurd (by rw [hline]) h
    | some line =>
      obtain ⟨argLine, k⟩ := line
      rw [hline] at h
      rw [(readLine_append_right hline q).1]
      dsimp only at h ⊢
      split
      · rfl
      rename_i hneg
      rw [if_neg hneg] at h
      cases hnum : parseUint argLine with
      | none => rfl
      | some argLen =>
        rw [hnum] at h
        dsimp only at h ⊢
        split
        · rfl
        rename_i hmax
        rw [if_neg hmax] at h
        have hlen : ¬ p.length < c + (k + 1) + argLen + 2 := fun hlt => h (if_pos hlt)
        rw [if_neg hlen, if_neg (by rw [length_append]; omega)]

theorem parseArg_within {c c' : Nat} {arg : Option Span} (h : parseArg p c = .ok (arg, c')) :
    c ≤ c' ∧ c' ≤ p.length ∧ ∀ s ∈ arg, Span.Within c' s := by
  rw [parseArg] at h
  cases hdrop : p.drop c with
  | nil =>
    rw [hdrop] at h
    cases h
  | cons b rest =>
    have hrest : rest.length + (c + 1) = p.length := by
      have := congrArg length hdrop
      rw [length_drop, length_cons] at this
      omega
    rw [hdrop] at h
    dsimp only at h
    split at h
    · cases h
    split at h
    · cases h
    rename_i argLine k hline
    obtain ⟨-, -, hk⟩ := readLine_append_right hline []
    split at h
    · split at h
      · cases h
      · cases h
        exact ⟨by omega, by omega, fun s hs => by cases hs⟩
    split at h
    · cases h
    split at h
    · cases h
    split at h
    · cases h
    cases h
    refine ⟨by omega, by omega, fun s hs => ?_⟩
    cases hs
    exact Nat.le_add_right ..

theorem parseArgs_stays {n c : Nat} {acc : Args} (h : parseArgs p n c acc ≠ .error .incomplete) (q : Bytes) :
    parseArgs (p ++ q) n c acc = parseArgs p n c acc := by
  induction n generalizing c acc with
  | zero => rfl
  | succ n ih =>
    rw [parseArgs] at h
    have harg : parseArg p c ≠ .error .incomplete := fun hp => h (by rw [hp])
    rw [parseArgs, parseArgs, parseArg_stays harg]
    cases hp : parseArg p c with
    | error e => rfl
    | ok r =>
      rw [hp] at h
      exact ih h

theorem parseArgs_within {n c c' : Nat} {acc args : Args} (hc : c ≤ p.length) (hacc : acc.Within c)
    (h : parseArgs p n c acc = .ok (args, c')) : c ≤ c' ∧ c' ≤ p.length ∧ args.Within c' := by
  induction n generalizing c acc with
  | zero =>
    cases h
    exact ⟨le_refl _, hc, hacc⟩
  | succ n ih =>
    rw [parseArgs] at h
    cases harg : parseArg p c with
    | error e => rw [harg] at h; cases h
    | ok r =>
      obtain ⟨arg, c1⟩ := r
      obtain ⟨hcc, hle, hin⟩ := parseArg_within harg
      rw [harg] at h
      have hacc' : Args.Within c1 (acc ++ [arg]) := by
        intro a ha s hs
        rcases mem_append.1 ha with ha | ha
        · exact (hacc a ha s hs).trans hcc
        · rw [mem_singleton.1 ha] at hs
          exact hin s hs
      obtain ⟨hcc', hle', hin'⟩ := ih hle hacc' h
      exact ⟨hcc.trans hcc', hle', hin'⟩

theorem parseOneMultibulk_stays (h : parseOneMultibulk p ≠ .error .incomplete) (q : Bytes) :
    parseOneMultibulk (p ++ q) = parseOneMultibulk p := by
  cases p with
  | nil => exact absurd rfl h
  | cons b p =>
    rw [parseOneMultibulk] at h
    rw [cons_append, parseOneMultibulk, parseOneMultibulk]
    split
    · rfl
    rename_i hb
    rw [if_neg hb] at h
    cases hline : readLine p with
    | none => exact absurd (by rw [hline]) h
    | some r =>
      rw [hline] at h
      rw [(readLine_append_right hline q).1]
      dsimp only at h ⊢
      cases hnum : parseUint r.1 with
      | none => rfl
      | some count =>
        rw [hnum] at h
        exact parseArgs_stays h q

theorem parseOneMultibulk_within {n : Nat} {args : Args} (h : parseOneMultibulk p = .ok (args, n)) :
    0 < n ∧ n ≤ p.length ∧ args.Within n := by
  cases p with
  | nil => cases h
  | cons b p =>
    rw [parseOneMultibulk] at h
    split at h
    · cases h
    split at h
    · cases h
    rename_i line k hline
    obtain ⟨-, -, hk⟩ := readLine_append_right hline []
    split at h
    · cases h
    obtain ⟨hle, hlen, hin⟩ := parseArgs_within (by rw [length_cons]; omega) (fun a ha => by cases ha) h
    exact ⟨by omega, hlen, hin⟩

theorem parseOneMultibulk_partial {r : Request} (hp : p ++ q = r.encode) (hlt : p.length < r.encode.length) :
    parseOneMultibulk p = .error .incomplete := by
  have hwhole := (parseOneMultibulk_encode r []).1
  rw [append_nil, ← hp] at hwhole
  by_contra hpart
  have hle := (parseOneMultibulk_within ((parseOneMultibulk_stays hpart q).symm.trans hwhole)).2.1
  rw [hp] at hle
  omega

/-! ## Streams in chunks -/

theorem Span.read_shift (buf : Bytes) (offset : Nat) (s : Span) :
    (s.shift offset).read buf = s.read (buf.drop offset) := by
  rw [Span.read, Span.read, Span.shift, drop_drop]

theorem Args.read_shift (buf : Bytes) (offset : Nat) (args : Args) :
    Args.read buf (args.map (Option.map (Span.shift offset))) = Args.read (buf.drop offset) args := by
  rw [Args.read, Args.read, map_map]
  refine map_congr_left fun arg _ => ?_
  cases arg with
  | none => rfl
  | some s => exact congrArg some (s.read_shift buf offset)

/-- What arrives of a stream of requests: whole requests, and a part of the next one. -/
structure Split (log : List Request) (p : Bytes) (done left : List Request) (tail : Bytes) : Prop where
  log_eq : log = done ++ left
  arrived : p = done.flatMap Request.encode ++ tail
  part : ∀ r ∈ left.head?, tail.length < r.encode.length

/-- The parser on a part `p` of a stream of requests, by induction on them: it finds those that
are there, and stops in front of the next one. -/
theorem parseFrom_log (log : List Request) {buf p q : Bytes} {fuel offset : Nat} (cmds : List Args)
    (hp : buf.drop offset = p) (hq : p ++ q = log.flatMap Request.encode) (hfuel : p.length ≤ fuel) :
    ∃ done left tail found, Split log p done left tail ∧ parseFrom buf fuel offset cmds =
        .ok (cmds ++ found, offset + (done.flatMap Request.encode).length) ∧
      found.map (Args.read buf) = done.map fun r => r.args.map some := by
  induction log generalizing p fuel offset cmds with
  | nil =>
    obtain ⟨rfl, rfl⟩ := append_eq_nil_iff.1 hq
    refine ⟨[], [], [], [], ⟨rfl, rfl, by simp⟩, ?_, rfl⟩
    have hle := drop_eq_nil_iff.1 hp
    cases fuel with
    | zero => simp [parseFrom]
    | succ fuel => simp [parseFrom, hle]
  | cons r log ih =>
    rw [flatMap_cons] at hq
    by_cases hlt : p.length < r.encode.length
    · -- the request is not whole: the parser stops here
      refine ⟨[], r :: log, p, [], ⟨rfl, rfl, by simpa using hlt⟩, ?_, rfl⟩
      obtain ⟨q', hq'⟩ : ∃ q', p ++ q' = r.encode := by
        refine ⟨r.encode.drop p.length, ?_⟩
        have htake := congrArg (take p.length) hq
        rw [take_left, take_append_of_le_length (by omega)] at htake
        nth_rewrite 1 [htake]
        exact take_append_drop _ _
      cases fuel with
      | zero => simp [parseFrom]
      | succ fuel =>
        rw [parseFrom, hp, parseOneMultibulk_partial hq' hlt]
        simp
    obtain ⟨p', rfl⟩ : ∃ p', p = r.encode ++ p' := by
      refine ⟨p.drop r.encode.length, ?_⟩
      have htake := congrArg (take r.encode.length) hq
      rw [take_left, take_append_of_le_length (by omega)] at htake
      nth_rewrite 1 [← htake]
      exact (take_append_drop _ _).symm
    have hpos : 0 < r.encode.length := by rw [r.length_encode]; omega
    have hoff : ¬buf.length ≤ offset := fun hc => by
      rw [drop_eq_nil_of_le hc] at hp
      have := congrArg length hp
      rw [length_nil, length_append] at this
      omega
    obtain ⟨fuel, rfl⟩ : ∃ n, fuel = n + 1 := ⟨fuel - 1, by rw [length_append] at hfuel; omega⟩
    obtain ⟨hparse, hread⟩ := parseOneMultibulk_encode r p'
    have hp' : buf.drop (offset + r.encode.length) = p' := by
      rw [← drop_drop, hp, drop_left]
    have hq' : p' ++ q = log.flatMap Request.encode := by simpa using hq
    have hfuel' : p'.length ≤ fuel := by rw [length_append] at hfuel; omega
    obtain ⟨done, left, tail, found, hsplit, hrest, hfound⟩ :=
      ih (cmds ++ [(spans (headerLen r) r.args).map (Option.map (Span.shift offset))]) hp' hq' hfuel'
    refine ⟨r :: done, left, tail, (spans (headerLen r) r.args).map (Option.map (Span.shift offset)) :: found,
      ⟨by rw [hsplit.log_eq]; rfl, by rw [hsplit.arrived]; simp, hsplit.part⟩, ?_, ?_⟩
    · rw [parseFrom, if_neg hoff, hp, hparse]
      dsimp only
      rw [hrest]
      simp [add_assoc]
    · rw [map_cons, map_cons, hfound, Args.read_shift, hp, hread]

theorem feed_log {log : List Request} {buf chunk q : Bytes} (h : buf ++ chunk ++ q = log.flatMap Request.encode) :
    ∃ done left tail, Split log (buf ++ chunk) done left tail ∧
      feed buf chunk = .ok (done.map (fun r => r.args.map some), tail) := by
  have hdrop : (buf ++ chunk).drop 0 = buf ++ chunk := drop_zero
  obtain ⟨done, left, tail, found, hsplit, hparse, hread⟩ := parseFrom_log log [] hdrop h (le_refl _)
  refine ⟨done, left, tail, hsplit, ?_⟩
  rw [feed, parseRequests, hparse]
  dsimp only
  rw [nil_append, hread, zero_add, hsplit.arrived, drop_left]

/-- Any division into chunks of the rest of a stream of requests. -/
theorem feedAll_log (chunks : List Bytes) {log : List Request} {buf : Bytes}
    (hbuf : ∀ r ∈ log.head?, buf.length < r.encode.length) (h : buf ++ chunks.flatten = log.flatMap Request.encode) :
    feedAll buf chunks = .ok (log.map (fun r => r.args.map some), []) := by
  induction chunks generalizing log buf with
  | nil =>
    rw [flatten_nil, append_nil] at h
    cases log with
    | nil => rw [feedAll, h]; rfl
    | cons r log =>
      have hlt := hbuf r rfl
      rw [h, flatMap_cons, length_append] at hlt
      omega
  | cons chunk chunks ih =>
    rw [flatten_cons, ← append_assoc] at h
    obtain ⟨done, left, tail, hsplit, hfeed⟩ := feed_log h
    have hleft : tail ++ chunks.flatten = left.flatMap Request.encode := by
      rw [hsplit.log_eq, hsplit.arrived, flatMap_append, append_assoc] at h
      exact append_cancel_left h
    rw [feedAll, hfeed]
    dsimp only
    rw [ih hsplit.part hleft, hsplit.log_eq]
    simp

/-- The three request parsers of the repository read a stream of encoded requests alike: the
goroutine parser sends them and meets the end of the stream, `ParseV2` called once for each leaves
nothing, and the event loop's parser finds them in any division of the stream into chunks and ends
with an empty buffer. -/
theorem parsers_agree (log : List Request) (chunks : List Bytes)
    (h : chunks.flatten = log.flatMap Request.encode) : Resp.parseStream (log.flatMap Request.encode) =
        log.map (fun r => .data (.multiBulk r.args)) ++ [.error .eof] ∧
      Resp.V2.parseTimes log.length (log.flatMap Request.encode) = .ok (log.map (fun r => r.args.map some), []) ∧
      feedAll [] chunks = .ok (log.map (fun r => r.args.map some), []) := by
  refine ⟨?_, ?_, feedAll_log chunks (fun r _ => ?_) h⟩
  · have hfits : ∀ args ∈ log.map Request.args, Resp.Fits args := fun args hargs => by
      obtain ⟨r, -, rfl⟩ := List.mem_map.1 hargs
      exact r.fits_args
    have hlog := Resp.parseStream_log hfits
    rw [List.flatMap_map, List.map_map] at hlog
    refine hlog.trans (congrArg (· ++ _) (List.map_congr_left fun r _ => ?_))
    exact congrArg Resp.Payload.data (if_neg r.ne)
  · have hv2 := Resp.V2.parseTimes_log log []
    rwa [List.append_nil] at hv2
  · rw [r.length_encode, List.length_nil]
    omega

/-- `PING` and a `GET` of a key made of line ends, one byte at a time. -/
theorem parsers_agree_bytewise :
    feedAll [] ((Resp.toBytes ["PING"] ++ Resp.toBytes ["GET", crlf ++ crlf]).map ([·])) =
      .ok ([[some "PING"], [some "GET", some (crlf ++ crlf)]], []) :=
  (parsers_agree
    [⟨["PING"], by decide, by decide⟩, ⟨["GET", crlf ++ crlf], by decide, by decide⟩]
    ((Resp.toBytes ["PING"] ++ Resp.toBytes ["GET", crlf ++ crlf]).map ([·]))
    (by decide)).2.2

end Hayakv.Net
