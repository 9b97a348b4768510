import Hayakv.Aof.Log
import Hayakv.Resp.ParserV2

/-!
# A log that is cut

A crash can cut the append-only file at any byte. What the parser has read stays so when bytes follow,
and so it reads the last command line only if it is whole.
-/

namespace Hayakv.Aof

open Resp List

variable {p : Bytes}

theorem readLine_stays {x : Bytes × Bytes} (h : readLine p = some x) (q : Bytes) :
    readLine (p ++ q) = some (x.1, x.2 ++ q) := by
  induction p generalizing x with
  | nil => cases h
  | cons b p ih =>
    rw [readLine] at h
    rw [cons_append, readLine]
    split at h
    · cases h
      simp_all
    · obtain ⟨y, hy, rfl⟩ := Option.map_eq_some_iff.1 h
      simp_all

theorem parseArgs_stays {n : Nat} {lines : CmdLine} {x : CmdLine × Option Bytes × Bytes}
    (h : parseArgs n p lines = .ok x) (q : Bytes) : parseArgs n (p ++ q) lines = .ok (x.1, x.2.1, x.2.2 ++ q) := by
  have hline (p x) (h : readLine p = some x) := readLine_stays h q
  fun_induction parseArgs n p lines <;> grind [parseArgs, readFull]

theorem parse0_part (fuel : Nat) {r : Request} (hp : p <+: r.encode) (hlt : p.length < r.encode.length) :
    ∃ e, parse0 (fuel + 1) p = [.error e] := by
  obtain ⟨q, hq⟩ := hp
  rw [parse0]
  cases hline : readLine p with
  | none => exact ⟨.eof, rfl⟩
  | some x =>
    have hheader := readLine_stays hline q
    rw [hq, Request.encode, toBytes, readLine_header 42 (by decide)] at hheader
    obtain ⟨hx, hrest⟩ := Prod.mk.inj (Option.some.inj hheader)
    have h4 := length_header 42 r.args.length
    have hpos := length_pos_iff.2 r.ne
    have hargs := parseArgs_bulks r.fits_args.2 [] []
    rw [append_nil, hrest] at hargs
    dsimp only
    rw [← hx, endsCrlf_header, if_neg (by simp only [not_true, or_false]; omega), trimLine_header, parseLine, parseArray,
      tail_cons, parseInt_itoa (by omega) (by exact_mod_cast r.fits_args.1)]
    dsimp only
    rw [if_neg (by omega), if_neg (by omega), Int.toNat_natCast]
    cases h : parseArgs r.args.length x.2 [] with
    | error e => exact ⟨e, rfl⟩
    | ok y =>
      rw [parseArgs_stays h q] at hargs
      simp_all

/-- The requests that are whole in the first `k` bytes. -/
def whole : List Request → Nat → List Request
  | [], _ => []
  | r :: log, k => if k < r.encode.length then [] else r :: whole log (k - r.encode.length)

theorem commands_parse0 {log : List Request} {k fuel : Nat}
    (hfuel : ((log.flatMap Request.encode).take k).length ≤ fuel) :
    commands (parse0 (fuel + 1) ((log.flatMap Request.encode).take k)) = (whole log k).map Request.args := by
  induction log generalizing k fuel with
  | nil => simp [parse0, readLine, commands, whole]
  | cons r log ih =>
    rw [flatMap_cons] at hfuel ⊢
    rw [whole]
    split
    · rename_i hk
      obtain ⟨e, he⟩ := parse0_part fuel ⟨_, take_append_drop k _⟩ (by simpa using hk)
      rw [take_append_of_le_length hk.le, he]
      cases e <;> rfl
    · rw [take_append, take_of_length_le (by omega)] at hfuel ⊢
      have hlen := r.length_encode
      rw [length_append] at hfuel
      obtain ⟨n, rfl⟩ := Nat.exists_eq_add_of_le' (show 1 ≤ fuel by omega)
      rw [Request.encode, parse0_toBytes _ r.fits_args, Reply.ofArgs, if_neg r.ne, commands, ← Request.encode,
        ih (by omega), map_cons]

/-- **A torn log.** Of what a crash leaves of a log, `LoadAof` executes the command lines that are whole. -/
theorem readAof_take (rdb : RdbDecoder) (log : List Request) (k : Nat) :
    readAof rdb ((log.flatMap Request.encode).take k) = (whole log k).map Request.args := by
  have hskip : rdb.skip ((log.flatMap Request.encode).take k) = none := by
    refine rdb.skip_log _ ?_
    cases k <;> cases log <;> simp [Request.encode, toBytes]
  rw [readAof, hskip]
  exact commands_parse0 le_rfl

end Hayakv.Aof
