import Hayakv.Net.Requests

/-!
# The commands of a byte stream

What a client sends is a stream of bytes. `commandAt n` is its command number `n`
and `afterCommands n` what follows the first `n`, both as the parser reads the
whole stream; a stream need not be well formed. Bytes that arrive later change
neither (`afterCommands_append`, `commandAt_append`), and the commands of a query
buffer are the next ones of the stream (`parseRequests_spec`).
-/

namespace Hayakv.Net

open List Option

/-! ## Bytes that follow a command -/

variable {p : Bytes} {n : Nat} {s : Bytes}

/-- A command at the front of a buffer is the same when more follows it. -/
theorem parseOneMultibulk_append {args : Args} (h : parseOneMultibulk p = .ok (args, n)) (q : Bytes) :
    parseOneMultibulk (p ++ q) = .ok (args, n) ∧ 0 < n ∧ n ≤ p.length ∧ args.Within n :=
  ⟨(parseOneMultibulk_stays (by simp [h]) q).trans h, parseOneMultibulk_within h⟩

/-! ## The stream -/

/-- What follows the first `n` commands of a stream. -/
def afterCommands : Nat → Bytes → Option Bytes
  | 0, s => some s
  | n + 1, s =>
    match parseOneMultibulk s with
    | .error _ => none
    | .ok r => afterCommands n (s.drop r.2)

def frontCommand (s : Bytes) : Option (List (Option Bytes)) :=
  match parseOneMultibulk s with
  | .error _ => none
  | .ok r => some (Args.read s r.1)

def commandAt (n : Nat) (s : Bytes) : Option (List (Option Bytes)) := (afterCommands n s).bind frontCommand

theorem afterCommands_append {s r : Bytes} (h : afterCommands n s = some r) (t : Bytes) :
    afterCommands n (s ++ t) = some (r ++ t) := by
  induction n generalizing s with
  | zero =>
    cases h
    rfl
  | succ n ih =>
    rw [afterCommands] at h ⊢
    cases hp : parseOneMultibulk s with
    | error e => rw [hp] at h; cases h
    | ok res =>
      obtain ⟨happ, -, hk, -⟩ := parseOneMultibulk_append hp t
      rw [hp] at h
      rw [happ]
      dsimp only at h ⊢
      rw [drop_append_of_le_length hk]
      exact ih h

theorem Span.read_append {sp : Span} (h : sp.Within n) (hn : n ≤ s.length) (t : Bytes) :
    sp.read (s ++ t) = sp.read s := by
  have hlen : sp.start + sp.len ≤ s.length := Nat.le_trans h hn
  rw [Span.read, Span.read, drop_append_of_le_length (by omega),
    take_append_of_le_length (by rw [length_drop]; omega)]

theorem Args.read_append {args : Args} (h : args.Within n) (hn : n ≤ s.length) (t : Bytes) :
    Args.read (s ++ t) args = Args.read s args := by
  refine map_congr_left fun arg harg => ?_
  cases arg with
  | none => rfl
  | some sp => exact congrArg some (Span.read_append (h _ harg sp rfl) hn t)

variable {line : List (Option Bytes)}

theorem frontCommand_append (h : frontCommand s = some line) (t : Bytes) : frontCommand (s ++ t) = some line := by
  rw [frontCommand] at h ⊢
  cases hp : parseOneMultibulk s with
  | error e => rw [hp] at h; cases h
  | ok r =>
    obtain ⟨happ, -, hk, hin⟩ := parseOneMultibulk_append hp t
    rw [hp] at h
    rw [happ]
    dsimp only at h ⊢
    rw [Args.read_append hin hk]
    exact h

theorem commandAt_append (h : commandAt n s = some line) (t : Bytes) : commandAt n (s ++ t) = some line := by
  rw [commandAt, bind_eq_some_iff] at h ⊢
  obtain ⟨r, hr, hline⟩ := h
  exact ⟨r ++ t, afterCommands_append hr t, frontCommand_append hline t⟩

theorem afterCommands_add {n m : Nat} {s r : Bytes} (h : afterCommands n s = some r) :
    afterCommands (n + m) s = afterCommands m r := by
  induction n generalizing s with
  | zero =>
    cases h
    rw [Nat.zero_add]
  | succ n ih =>
    rw [afterCommands] at h
    rw [Nat.add_right_comm, afterCommands]
    cases hp : parseOneMultibulk s with
    | error e => rw [hp] at h; cases h
    | ok res =>
      rw [hp] at h
      exact ih h

theorem commandAt_add {n m : Nat} {s r : Bytes} (h : afterCommands n s = some r) :
    commandAt (n + m) s = commandAt m r := by
  rw [commandAt, afterCommands_add h]
  rfl

/-! ## The commands of a buffer -/

/-- The loop of `parseRequests` from `offset` on finds the next commands of the stream. -/
theorem parseFrom_spec {buf : Bytes} {fuel offset consumed : Nat} {acc cmds : List Args}
    (hoff : offset ≤ buf.length) (hfuel : buf.length ≤ offset + fuel)
    (h : parseFrom buf fuel offset acc = .ok (cmds, consumed)) :
    ∃ found, cmds = acc ++ found ∧ offset ≤ consumed ∧ consumed ≤ buf.length ∧
      afterCommands found.length (buf.drop offset) = some (buf.drop consumed) ∧
      frontCommand (buf.drop consumed) = none ∧ (∀ i cmd, found[i]? = some cmd →
        commandAt i (buf.drop offset) = some (Args.read buf cmd) ∧ cmd.Within consumed) := by
  have hstop : buf.length ≤ offset → frontCommand (buf.drop offset) = none := fun hle => by
    rw [drop_eq_nil_of_le hle]
    rfl
  induction fuel generalizing offset acc with
  | zero =>
    cases h
    exact ⟨[], (append_nil _).symm, Nat.le_refl _, hoff, rfl, hstop hfuel, by simp⟩
  | succ fuel ih =>
    rw [parseFrom] at h
    by_cases hend : buf.length ≤ offset
    · rw [if_pos hend] at h
      cases h
      exact ⟨[], (append_nil _).symm, Nat.le_refl _, hoff, rfl, hstop hend, by simp⟩
    rw [if_neg hend] at h
    cases hp : parseOneMultibulk (buf.drop offset) with
    | error e =>
      rw [hp] at h
      cases e with
      | incomplete =>
        cases h
        refine ⟨[], (append_nil _).symm, Nat.le_refl _, hoff, rfl, ?_, by simp⟩
        rw [frontCommand, hp]
      | protocol => cases h
      | panic => cases h
    | ok r =>
      obtain ⟨args, k⟩ := r
      obtain ⟨-, hpos, hk, hin⟩ := parseOneMultibulk_append hp []
      rw [length_drop] at hk
      rw [hp] at h
      obtain ⟨found, rfl, hle, hlen, hafter, hfront, hcmds⟩ := ih (by omega) (by omega) h fun hle => by
        rw [drop_eq_nil_of_le hle]
        rfl
      refine ⟨args.map (Option.map (Span.shift offset)) :: found, by simp, by omega, hlen, ?_, hfront, ?_⟩
      · rw [length_cons, afterCommands, hp]
        dsimp only
        rw [drop_drop, hafter]
      · intro i cmd hi
        cases i with
        | zero =>
          cases hi
          refine ⟨?_, fun a ha s hs => ?_⟩
          · rw [commandAt, afterCommands, bind_some, frontCommand, hp, Args.read_shift]
          · obtain ⟨arg, harg, rfl⟩ := mem_map.1 ha
            obtain ⟨sp, hsp, rfl⟩ := mem_map.1 hs
            have := hin arg harg sp hsp
            rw [Span.Within] at this ⊢
            rw [Span.shift]
            dsimp only
            omega
        | succ i =>
          obtain ⟨hcmd, hw⟩ := hcmds i cmd hi
          refine ⟨?_, hw⟩
          rw [commandAt, afterCommands, hp]
          dsimp only
          rw [drop_drop]
          exact hcmd

/-- The commands of a query buffer are the next ones of the stream, and what is left of it follows
them and has no further command. -/
theorem parseRequests_spec {buf : Bytes} {cmds : List Args} {consumed : Nat}
    (h : parseRequests buf = .ok (cmds, consumed)) :
    consumed ≤ buf.length ∧ afterCommands cmds.length buf = some (buf.drop consumed) ∧
      frontCommand (buf.drop consumed) = none ∧ ∀ i cmd, cmds[i]? = some cmd →
        commandAt i buf = some (Args.read buf cmd) ∧ cmd.Within consumed := by
  obtain ⟨found, heq, -, hlen, hafter, hfront, hcmds⟩ := parseFrom_spec (Nat.zero_le _) (Nat.le_add_left ..) h
  subst heq
  exact ⟨hlen, hafter, hfront, hcmds⟩

end Hayakv.Net
