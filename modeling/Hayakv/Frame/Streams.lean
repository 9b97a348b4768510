import Hayakv.Frame.Rows

/-!
# How the commands on streams, HyperLogLogs and the server access keys

XGROUP, XREADGROUP, PFDEBUG, PFCOUNT and RENAMEFROM change a key that they do not declare as one they
write. RENAMETO and its kin run command lines that they are given.
-/

namespace Hayakv.Frame

open Engine Cmd Access Scope List Prog Exec

attribute [local simp] Keeps Scope.discipline Scope.ok Scope.ans Scope.next Access.Done Le.refl le_check Classical.em

variable {S : Scope} {known : Key → Prop} {apart : Prop} {key src dest : Key} {args : List Bytes} {env : Env}
  {run : CmdLine → Exec Reply}

/-! ## Streams -/

section streams

attribute [local simp] getAsStream getAs getOrInitStream

theorem keeps_xrangeBy {name : String} {rev : Bool} : S.Keeps known False (xrangeBy name rev args) := by
  simp [xrangeBy]

theorem keeps_execXRead : S.Keeps known False (execXRead args) := by
  refine wp_then (by simp) fun _ => ?_
  refine wp_then (by simp) fun o => ?_
  refine wp_then (by simp) fun _ => ?_
  refine wp_then (wp_fold_le (.refl _) (fun results p _ => ?_) fun _ _ => id) (by simp)
  refine wp_bind_le le_mono (by simp) fun s => ?_
  cases s <;> simp

theorem keeps_execXGroup {sub : Bytes} (hw : S.writes key ∨ (S.absent key ∧ ¬makesStream sub args)) :
    S.Keeps known False (execXGroup env (sub :: key :: args)) := by
  have ha : ∀ p : Exec Reply, (S.writes key → S.Keeps known False p) →
      (S.absent key → S.Keeps known False p) → S.Keeps known False p :=
    fun p h₁ h₂ => hw.elim h₁ fun h => h₂ h.1
  simp only [execXGroup]
  split_ifs with h₁ h₂ h₃ h₄ h₅
  · rcases hw with hw | ⟨ha, hm⟩
    · simp [execXGroupCreate, hw]
    simp only [Keeps, execXGroupCreate, wp_bind, wp_check, wp_arg, wp_orReply]
    refine ⟨by simp, fun _ => ⟨by simp, fun k hk => ⟨by simp, fun _ _ => ⟨by simp, fun _ _ => ⟨by simp,
      fun b hb => ?_⟩⟩⟩⟩⟩
    obtain rfl : key = k := by simpa using hk
    obtain rfl : b = false := by
      by_contra hne
      exact hm ⟨h₁, by rwa [Bool.eq_true_of_not_eq_false hne] at hb⟩
    simp +contextual [ha]
  · refine ha _ (fun hw => ?_) fun ha => ?_
    · simp [execXGroupSetID, hw]
    · simp +contextual [execXGroupSetID, ha]
  · refine ha _ (fun hw => ?_) fun ha => ?_
    · simp [execXGroupDestroy, hw]
    · simp +contextual [execXGroupDestroy, ha]
  · refine ha _ (fun hw => ?_) fun ha => ?_
    · simp [execXGroupCreateConsumer, hw]
    · simp +contextual [execXGroupCreateConsumer, ha]
  · refine ha _ (fun hw => ?_) fun ha => ?_
    · simp [execXGroupDelConsumer, hw]
    · simp +contextual [execXGroupDelConsumer, ha]
  · simp

/-- XREADGROUP declares none of the streams that it reads. -/
theorem keeps_execXReadGroup (hw : ∀ o rest, parseXReadGroup ⟨[], [], 0, false, -1⟩ args = .ok (o, rest) →
      ∀ p ∈ splitStreams rest, p.2 = ">" ∨ o.noack = true → S.writes p.1 ∨ S.absent p.1) :
    S.Keeps known False (execXReadGroup env args) := by
  refine wp_then (by simp) fun _ => ?_
  rw [wp_bind, wp_orExit]
  refine ⟨by simp, fun o ho => ?_⟩
  refine wp_then (by simp) fun _ => ?_
  refine wp_then (by simp) fun _ => ?_
  refine wp_then (by simp) fun _ => ?_
  refine wp_then (wp_fold_le (.refl _) (fun results p hp => ?_) fun _ _ => id) (by simp)
  have hp := hw o.1 o.2 ho p hp
  by_cases ha : S.absent p.1
  · -- a stream that is not there is passed over
    simp +contextual [ha]
  refine wp_bind_le le_mono (by simp) fun s => ?_
  cases s with
  | none => simp
  | some s =>
    have hp : p.2 = ">" ∨ o.1.noack = true → S.writes p.1 := fun h => (hp h).resolve_right ha
    simpa using fun _ _ _ _ _ => hp

theorem keeps_execXInfo : S.Keeps known False (execXInfo env args) := by
  cases args with
  | nil => simp [execXInfo]
  | cons sub args =>
    simp only [execXInfo]
    split_ifs
    · simp [execXInfoStream]
    · simp [execXInfoGroups]
    · simp [execXInfoConsumers]
    · simp

theorem rows_streamCommands : ∀ c ∈ streamCommands, Row S known apart env run c := by
  simp only [streamCommands, forall_mem_cons, not_mem_nil, false_imp_iff, implies_true, and_true]
  exact ⟨row_of_first rfl fun hw => by simp [execXAdd, hw], row_of_any keeps_xrangeBy,
    row_of_any keeps_xrangeBy, row_of_any (by simp [execXLen]),
    row_of_first rfl fun hw => by simp [execXDel, hw], row_of_first rfl fun hw => by simp [execXTrim, hw],
    row_of_first rfl fun hw => by simp [execXSetID, hw], row_of_any keeps_execXRead⟩

theorem rows_streamGroupCommands : ∀ c ∈ streamGroupCommands, Row S known apart env run c := by
  simp only [streamGroupCommands, forall_mem_cons, not_mem_nil, false_imp_iff, implies_true, and_true]
  refine ⟨?_, ?_, row_of_first rfl fun hw => by simp [execXAck, hw], row_of_any (by simp [execXPending]),
    row_of_first rfl fun hw => by simp [execXClaim, hw],
    row_of_first rfl fun hw => by simp [execXAutoClaim, hw], row_of_any keeps_execXInfo⟩
  · intro args W R harity _ hfit
    obtain _ | ⟨sub, _ | ⟨key, rest⟩⟩ := args
    · simp [validateArity] at harity
    · simp [validateArity] at harity
    · refine (keeps_execXGroup ?_).of_false
      by_cases hm : makesStream sub rest
      · exact Or.inl (hfit.makes rfl sub key rest rfl hm)
      · exact (hfit.undeclared key mem_cons_self).imp_right fun ha => ⟨ha, hm⟩
  · intro args W R _ _ hfit
    exact (keeps_execXReadGroup fun o rest hp p hmem hr =>
      hfit.undeclared p.1 (mem_undeclared_xreadgroup hp hmem hr)).of_false

end streams

/-! ## HyperLogLogs -/

section hyperLogLogs

attribute [local simp] getAsHLL getAs

variable {g : Access}

theorem wp_performEdits {edits : List Hll.Edit} (hf : ¬g.foreign) :
    (performEdits edits).wp S.discipline (fun _ g' => g.Le g') g := by
  refine wp_fold_le (.refl _) (fun _ e _ => ?_) fun _ _ => id
  cases e with
  | write ws => simp [performEdit, hf]
  | rebuild body => simp [performEdit, hf]
  | replace raw =>
    exact ⟨trivial, fun _ _ => { Le.refl g with foreign := False.elim }⟩

theorem wp_hllAdd {elem : Bytes} (hf : ¬g.foreign) (hd : g.Done) :
    (hllAdd elem).wp S.discipline (fun _ g' => g.Le g') g := by
  refine wp_bind_le le_mono (by simp) fun raw => ?_
  refine wp_bind_le le_mono (by simpa using fun _ => hd) fun r => ?_
  exact wp_bind_le le_mono (wp_performEdits hf) fun _ => Le.refl g

theorem wp_hllCount (hf : ¬g.foreign) (hd : g.Done) : (hllCount env).wp S.discipline (fun _ g' => g.Le g') g := by
  refine wp_bind_le le_mono (by simp) fun raw => ?_
  refine wp_bind_le le_mono (by simpa using fun _ => hd) fun r => ?_
  exact wp_bind_le le_mono (wp_performEdits hf) fun _ => Le.refl g

theorem wp_hllMerge (hf : ¬g.foreign) (hd : g.Done) : (hllMerge src).wp S.discipline (fun _ g' => g.Le g') g := by
  unfold hllMerge
  generalize range Hll.hllRegisters = regs
  refine wp_bind_le le_mono (wp_fold_le (.refl _) (fun _ reg _ => ?_) fun _ _ => id) fun _ => ?_
  · refine wp_bind_le le_mono (by simp) fun raw => ?_
    refine wp_bind_le le_mono (by simp) fun other => ?_
    refine wp_bind_le le_mono (by simpa using fun _ => hd) fun r => ?_
    exact wp_performEdits hf
  · simp [performEdit, Hll.invalidate, hf]

-- its loop over all registers must not be unfolded
attribute [local irreducible] hllMerge

theorem wp_mergeAll {keys : List Key} (hf : ¬g.foreign) (hd : g.Done) : (fold keys () fun _ key => do
      let h ← getAsHLL key
      when h.isSome (hllMerge key)).wp S.discipline (fun _ g' => g.Le g') g := by
  have hd' : ∀ k, ¬g.stale k := hd
  refine wp_fold_le (.refl _) (fun _ key _ => ?_) fun _ _ => id
  refine wp_bind_le le_mono (by simp [hd']) fun h => ?_
  rw [wp_when]
  exact ⟨fun _ => wp_hllMerge hf hd, fun _ => .refl g⟩

theorem wp_hllToDense (hf : ¬g.foreign) (hd : g.Done) : hllToDense.wp S.discipline (fun _ g' => g.Le g') g := by
  refine wp_fold_le (.refl _) (fun _ i _ => ?_) fun _ _ => id
  refine wp_bind_le le_mono (by simp) fun raw => ?_
  rw [wp_when]
  exact ⟨fun _ => wp_bind_le le_mono (wp_hllAdd hf hd) fun _ => .refl g, fun _ => .refl g⟩

theorem wp_openHLL {found : Bool} (hw : S.writes key) (hl : ¬g.loose) : (openHLL key found).wp S.discipline
      (fun _ g' => g' = { g with foreign := False }) g := by
  cases found <;> simp [openHLL, hw, hl]

theorem keeps_execPFAdd (hw : S.writes key) : S.Keeps known False (execPFAdd (key :: args)) := by
  rw [Keeps, execPFAdd, arg_zero_bind, wp_ite]
  refine ⟨fun _ => by simp [hw], fun _ => ?_⟩
  refine wp_seq (R := fun _ g => (start known False).Le g ∧ g.known key) (by simp) fun h g ⟨hg, hk⟩ => ?_
  have hd : ∀ k, ¬g.stale k := hg.done start_done
  refine wp_seq (wp_openHLL hw hg.loose) fun _ g' hg' => ?_
  subst hg'
  refine wp_then (wp_fold_le (.refl _) (fun c elem _ => ?_) fun _ _ => id) fun c => ?_
  · exact wp_bind_le le_mono (wp_hllAdd id hd) fun _ => Le.refl _
  · simp [hw, hd, hk]

theorem keeps_execPFCount (hw : ∀ key, args = [key] → S.writes key ∨ S.absent key) :
    S.Keeps known False (execPFCount env args) := by
  rw [Keeps, execPFCount]
  split_ifs with h1
  · obtain ⟨key, rfl⟩ := length_eq_one_iff.1 h1
    rw [arg_zero_bind]
    rcases hw key rfl with hw | ha
    · refine wp_seq (R := fun _ g => g.Done ∧ ¬g.loose) (by simp) fun h g ⟨hd, hl⟩ => ?_
      refine wp_seq (R := fun _ g' => g' = g) (by simpa using fun _ => hd) fun _ g' hg => ?_
      subst hg
      have hd' : ∀ k, ¬g'.stale k := hd
      refine wp_seq (R := fun _ g => g.Done ∧ ¬g.foreign) (by simp [hd', hl, hw]) fun _ g hd => ?_
      exact wp_seq (wp_hllCount hd.2 hd.1) fun _ g' hg => hg.done hd.1
    · simp +contextual [ha]
  · refine wp_seq (R := fun _ g => g.Done ∧ ¬g.foreign) (by simp) fun _ g hd => ?_
    refine wp_then (wp_mergeAll hd.2 hd.1) fun _ => ?_
    exact wp_seq (wp_hllCount hd.2 hd.1) fun _ g' hg => hg.done hd.1

theorem keeps_execPFMerge (hw : S.writes key) : S.Keeps known False (execPFMerge (key :: args)) := by
  rw [Keeps, execPFMerge, arg_zero_bind]
  refine wp_seq (R := fun _ g => (start known False).Le g ∧ g.known key) (by simp) fun h g ⟨hg, hk⟩ => ?_
  have hd : ∀ k, ¬g.stale k := hg.done start_done
  refine wp_seq (wp_openHLL hw hg.loose) fun _ g' hg' => ?_
  subst hg'
  refine wp_then (wp_mergeAll id hd) fun _ => ?_
  simp [hw, hd, hk]

theorem keeps_execPFDebug {sub : Bytes}
    (hw : toUpper sub = "TODENSE" ∨ toUpper sub = "DECODE" → S.writes key ∨ S.absent key) :
    S.Keeps known False (execPFDebug env (sub :: key :: args)) := by
  by_cases ha : S.absent key
  · simp +contextual [execPFDebug, ha]
  have hw : toUpper sub = "TODENSE" ∨ toUpper sub = "DECODE" → S.writes key := fun h => (hw h).resolve_right ha
  rw [Keeps, execPFDebug, arg_zero_bind]
  refine wp_seq (R := fun k g => k = key ∧ g = start known False) (by simp) fun k g hk => ?_
  obtain ⟨rfl, rfl⟩ := hk
  refine wp_seq (R := fun _ g => (start known False).Le g ∧ g.known k) (by simp) fun h g ⟨hg, hk⟩ => ?_
  have hd : ∀ k, ¬g.stale k := hg.done start_done
  refine wp_seq (R := fun _ g' => g' = g) (by simpa using fun _ => hd) fun raw g' hg' => ?_
  subst hg'
  have hl : ¬g'.loose := hg.loose
  refine wp_seq (R := fun _ g => (∀ k, ¬g.stale k) ∧ g.known k ∧ (S.writes k → ¬g.foreign))
    (by simp +contextual [hd, hl, hk]) fun _ g ⟨hd, hk, hf⟩ => ?_
  simp only [wp_ite, wp_pure]
  refine ⟨fun _ => hd, fun _ => ⟨fun _ => hd, fun _ => ⟨fun hs => ?_, fun _ => ⟨fun hs => ?_, fun _ => hd⟩⟩⟩⟩
  · refine wp_seq (R := fun _ g' => g' = g) (by simpa using fun _ => hd) fun _ g' hg => ?_
    subst hg
    refine wp_then (wp_hllToDense (hf (hw (.inl hs))) hd) fun _ => ?_
    simp [hd, hk, hf (hw (.inl hs)), hw (.inl hs)]
  · exact wp_then (wp_hllCount (hf (hw (.inr hs))) hd) fun _ => hd

theorem keeps_execPFSelftest : S.Keeps known False (execPFSelftest env args) := by
  simp [execPFSelftest]

-- the HyperLogLogs of PFSELFTEST must not be computed
attribute [local irreducible] execPFSelftest

theorem rows_hllCommands : ∀ c ∈ hllCommands, Row S known apart env run c := by
  simp only [hllCommands, forall_mem_cons, not_mem_nil, false_imp_iff, implies_true, and_true]
  refine ⟨row_of_first rfl keeps_execPFAdd, ?_, row_of_first rfl keeps_execPFMerge, ?_,
    row_of_any keeps_execPFSelftest⟩
  · refine fun args W R _ _ hfit => (keeps_execPFCount fun key hkey => hfit.undeclared key ?_).of_false
    subst hkey
    exact mem_cons_self
  · intro args W R harity _ hfit
    obtain _ | ⟨sub, _ | ⟨key, rest⟩⟩ := args
    · simp [validateArity] at harity
    · simp [validateArity] at harity
    · refine (keeps_execPFDebug fun hs => hfit.undeclared key ?_).of_false
      change key ∈ if toUpper sub = "TODENSE" ∨ toUpper sub = "DECODE" then [key] else []
      rw [if_pos hs]
      exact mem_cons_self

end hyperLogLogs

/-! ## The server -/

section server

theorem keeps_execExistIn : S.Keeps known False (execExistIn args) := by
  refine wp_then (wp_fold_le (.refl _) (fun r k _ => ?_) fun _ _ => id) fun n => ?_
  · simp
  · simp

theorem keeps_execRenameFrom (hw : S.writes key ∨ S.absent key) :
    S.Keeps known False (execRenameFrom (key :: args)) := by
  simp [execRenameFrom, hw]

/-- RENAMETO and its kin, given that the command lines they carry keep to the discipline. -/
theorem keeps_execRenameTo {run : CmdLine → Exec Reply} {dump ttl : Bytes} (hw : S.writes key)
    (hdump : ∀ line, parseDump "dump" dump key = .ok line → S.Keeps (fun k => k = key ∨ known k) False (run line))
    (httl : ∀ line g, parseDump "ttl" ttl key = .ok line → Done g →
      (run line).wp S.discipline (fun _ g' => g'.Done) g) :
    S.Keeps known False (execRenameTo run (key :: dump :: ttl :: args)) := by
  simp only [Keeps, execRenameTo, wp_bind, wp_arg, wp_orExit, wp_perform]
  refine ⟨by simp, fun k hk => ⟨by simp, fun d hd => ⟨by simp, fun dumpCmd hdc => ⟨by simp, fun t ht =>
    ⟨by simp, fun ttlCmd htc => ?_⟩⟩⟩⟩⟩
  obtain rfl : key = k := by simpa using hk
  obtain rfl : dump = d := by simpa using hd
  obtain rfl : ttl = t := by simpa using ht
  refine ⟨Or.inl hw, fun _ _ => ?_⟩
  have hrun := wp_of_le (start_le (g := (start known False).check key) (fun _ => id)
    (fun _ h => h.1) id) done_mono (hdump dumpCmd hdc)
  refine wp_mono (fun r g hg => ?_) hrun
  rw [wp_bind, wp_check]
  refine ⟨fun _ => hg, fun _ => ?_⟩
  refine wp_seq (httl ttlCmd g htc hg) fun r g hg => ?_
  rw [wp_bind, wp_check]
  exact ⟨fun _ => hg, fun _ => hg⟩

/-- What runs the command lines that a command carries keeps to the discipline for dumps, -/
def RunsDumps (S : Scope) (known : Key → Prop) (run : CmdLine → Exec Reply) : Prop :=
  ∀ name key rest, toLower name ∈ dumps → S.writes key →
    S.Keeps (fun k => k = key ∨ known k) False (run (name :: key :: rest))

def RunsExpiries (S : Scope) (run : CmdLine → Exec Reply) : Prop :=
  ∀ name key rest g, toLower name ∈ expiries → S.writes key → Done g →
    (run (name :: key :: rest)).wp S.discipline (fun _ g' => g'.Done) g

theorem parseDump_eq {what : String} {data : Bytes} {key : Key} {line : CmdLine}
    (h : parseDump what data key = .ok line) : ∃ name rest, line = name :: key :: rest := by
  unfold parseDump at h
  split at h
  · cases h
  · split_ifs at h with hlen
    cases h
    rename_i words _
    match words, hlen with
    | name :: _ :: rest, _ => exact ⟨name, rest, rfl⟩
    | [_], hlen => simp at hlen
    | [], hlen => simp at hlen
  · cases h

theorem keeps_execDumpKey {args : List Bytes} : S.Keeps known False (execDumpKey env args) := by simp [execDumpKey]

theorem row_of_carrier (hp : c.prepare = writeFirstKey) (he : c.executor = fun _ run => execRenameTo run)
    (ha : c.arity = 4 ∨ c.arity = 5) (hc : c.name ∈ carriers) (hdump : RunsDumps S known run)
    (httl : RunsExpiries S run) : Row S known apart env run c := by
  intro args W R harity hprep hfit
  rw [hp] at hprep
  rw [he]
  match args, hprep with
  | key :: dump :: ttl :: rest, rfl =>
    have hw := hfit.writes key mem_cons_self
    have hcarries := hfit.dump hc
    simp only [carriesDump, Bool.and_eq_true] at hcarries
    refine (keeps_execRenameTo hw (fun line hline => ?_) fun line g hline hg => ?_).of_false
    · obtain ⟨name, rest, rfl⟩ := parseDump_eq hline
      exact hdump name key rest (by simpa [hline, isLineOf] using hcarries.1) hw
    · obtain ⟨name, rest, rfl⟩ := parseDump_eq hline
      exact httl name key rest g (by simpa [hline, isLineOf] using hcarries.2) hw hg
  | [_, _], _ | [_], _ | [], _ => rcases ha with h | h <;> simp [validateArity, h] at harity

theorem rows_serverCommands (hdump : RunsDumps S known run) (httl : RunsExpiries S run) :
    ∀ c ∈ serverCommands, Row S known apart env run c := by
  simp only [serverCommands, forall_mem_cons, not_mem_nil, false_imp_iff, implies_true, and_true]
  refine ⟨row_of_any (by simp [execObject]), row_of_any (by simp [execMemory]),
    row_of_any keeps_execDumpKey, row_of_any keeps_execExistIn, ?_, ?_, ?_, row_of_any start_done,
    ?_, row_of_any (by simp [execGetVersion])⟩
  · intro args W R harity _ hfit
    cases args with
    | nil => simp [validateArity] at harity
    | cons key rest => exact (keeps_execRenameFrom (hfit.undeclared key mem_cons_self)).of_false
  · exact row_of_carrier rfl rfl (by decide) (by decide) hdump httl
  · exact row_of_carrier rfl rfl (by decide) (by decide) hdump httl
  · exact row_of_carrier rfl rfl (by decide) (by decide) hdump httl

end server

end Hayakv.Frame
