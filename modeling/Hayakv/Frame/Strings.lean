import Hayakv.Frame.Rows

/-!
# How the commands on keys and strings access keys

Each command keeps to the discipline of `Frame.Access` in every scope that has its keys. The
hypotheses on `known` are about keys that a command uses without a look at their expiry.
-/

namespace Hayakv.Frame

open Engine Cmd Access Scope List Prog Exec

attribute [local simp] Keeps Scope.discipline Scope.ok Scope.ans Scope.next Access.Done Le.refl le_check Classical.em

variable {S : Scope} {known : Key → Prop} {apart : Prop} {key src dest : Key} {args : List Bytes} {env : Env}
  {run : CmdLine → Exec Reply}

/-! ## Keys -/

section keys

attribute [local simp] getAsString

variable {g : Access} {expireAt : Int → Int}

theorem wp_removes {keys : List Key} (hw : ∀ k ∈ keys, S.writes k) (hk : ∀ k ∈ keys, g.known k) :
    (removes keys).wp S.discipline (fun _ g' => g.Le g') g := by
  refine wp_fold_le (.refl g) (fun deleted k hk' => ?_) fun _ _ => id
  simp [hw k hk', hk k hk']

theorem keeps_execDel (hw : ∀ k ∈ args, S.writes k) (hk : ∀ k ∈ args, known k) :
    S.Keeps known False (execDel args) := by
  refine wp_then (wp_removes hw hk) fun deleted => ?_
  simp

theorem keeps_execExists : S.Keeps known False (execExists args) := by
  refine wp_then (wp_fold_le (.refl _) (fun n k _ => ?_) fun _ _ => id) fun n => ?_
  · simp
  · simp

/-- The source of RENAME is not among the keys that it declares; where it is not there, RENAME does
nothing. -/
theorem keeps_execRename (hsrc : S.writes src ∨ S.absent src) (hdest : S.writes dest)
    (hk : known dest) : S.Keeps known False (execRename (src :: dest :: args)) := by
  rcases hsrc with hw | ha
  · simp [execRename, hw, hdest, hk]
  · simp +contextual [execRename, ha]

theorem keeps_execRenameNx (hsrc : S.writes src ∨ S.absent src) (hdest : S.writes dest) :
    S.Keeps known False (execRenameNx (src :: dest :: args)) := by
  rcases hsrc with hw | ha
  · simp [execRenameNx, removes, hw, hdest]
  · simp +contextual [execRenameNx, ha]

/-- EXPIRE and its relatives, also inside of another command. -/
theorem wp_expireBy (hw : S.writes key) (hd : g.Done) :
    (expireBy expireAt (key :: args)).wp S.discipline (fun _ g' => g'.Done) g := by
  have hd' : ∀ k, ¬g.stale k := hd
  simp [expireBy, hw, hd']

theorem keeps_expireBy (hw : S.writes key) :
    S.Keeps known False (expireBy expireAt (key :: args)) := wp_expireBy hw start_done

theorem keeps_ttlBy {ofExpiry : Int → Int} : S.Keeps known False (ttlBy ofExpiry args) := by
  simp [ttlBy]

theorem wp_execPersist (hw : S.writes key) (hd : g.Done) :
    (execPersist (key :: args)).wp S.discipline (fun _ g' => g'.Done) g := by
  have hd' : ∀ k, ¬g.stale k := hd
  simp [execPersist, hw, hd']

/-- SCAN looks at the keys it has found only for their types. -/
theorem keeps_execScan (hs : S.scan) : S.Keeps known False (execScan env args) := by
  simp only [Keeps, execScan, wp_bind, wp_orExit, wp_arg, wp_require, wp_perform, wp_check]
  refine ⟨by simp, fun o _ => ⟨by simp, fun t _ => ⟨by simp, fun c _ => ⟨by simp [hs], fun ks _ =>
    ⟨by simp, fun _ => ?_⟩⟩⟩⟩⟩
  rw [wp_ite]
  refine ⟨by simp, fun _ => wp_then ?_ (by simp)⟩
  refine wp_fold_le (.refl _) (fun r k _ => ?_) fun _ _ => id
  simp [getType]

theorem keeps_execKeys (hs : S.scan) (hk : ∀ k, known k) : S.Keeps known False (execKeys env args) := by
  simp only [Keeps, execKeys, wp_bind, wp_arg, wp_require, wp_perform]
  refine ⟨by simp, fun t _ => ⟨by simp, fun m _ => ⟨by simp [hs], fun ks _ => ?_⟩⟩⟩
  rw [← wp_bind]
  refine wp_then (wp_fold_le (.refl _) (fun r k _ => ?_) fun _ _ => id) (by simp)
  simp [hk k]

theorem rows_keyCommands : ∀ c ∈ keyCommands, Row S known apart env run c := by
  simp only [keyCommands, forall_mem_cons, not_mem_nil, false_imp_iff, implies_true, and_true]
  refine ⟨?_, row_of_first rfl fun hw => by simp [execDelEX, hw], row_of_first rfl keeps_expireBy,
    row_of_first rfl keeps_expireBy, row_of_any keeps_ttlBy, row_of_first rfl keeps_expireBy,
    row_of_first rfl keeps_expireBy, row_of_any keeps_ttlBy, row_of_any keeps_ttlBy, row_of_any keeps_ttlBy,
    row_of_first rfl fun hw => wp_execPersist hw start_done, row_of_any keeps_execExists,
    row_of_any (by simp [execType, getType]), ?_, ?_, ?_, ?_⟩
  · intro args W R _ hprep hfit
    cases hprep
    exact (keeps_execDel hfit.writes hfit.unchecked).of_false
  · refine row_of_rename rfl fun src dest rest hfit => ?_
    exact keeps_execRename (hfit.undeclared src mem_cons_self) (hfit.writes dest mem_cons_self)
      (hfit.unchecked dest mem_cons_self)
  · refine row_of_rename rfl fun src dest rest hfit => ?_
    exact keeps_execRenameNx (hfit.undeclared src mem_cons_self) (hfit.writes dest mem_cons_self)
  · exact fun args W R _ _ hfit =>
      (keeps_execKeys (hfit.lists (by decide)) (hfit.all rfl)).of_false
  · exact fun args W R _ _ hfit => (keeps_execScan (hfit.lists (by decide))).of_false

end keys

/-! ## Strings -/

section strings

attribute [local simp] getAsString

variable {g : Access}

/-- A condition of SET ends the command or changes nothing. -/
theorem wp_setCondition {given : Option Bytes} {fails : Option Bytes → Bytes → Bool} (hd : g.Done) :
    (setCondition key given fails).wp S.discipline (fun _ g' => g.Le g') g := by
  have hd' : ∀ k, ¬g.stale k := hd
  simp [setCondition, getAsString, hd']

/-- SET with NX or XX looks for the key in the map only. -/
theorem keeps_execSet (hw : S.writes key)
    (hk : ∀ o, parseSet .default (args.drop 1) = .ok o → o.policy ≠ .upsert → known key) :
    S.Keeps known False (execSet env (key :: args)) := by
  simp only [Keeps, execSet, wp_bind, wp_arg, wp_orReply]
  refine ⟨by simp, fun k hk' => ⟨by simp, fun v _ => ⟨by simp, fun o ho => ?_⟩⟩⟩
  obtain rfl : key = k := by simpa using hk'
  simp only [← wp_bind]
  refine wp_then (wp_setCondition start_done) fun _ => ?_
  refine wp_then (wp_setCondition start_done) fun _ => ?_
  refine wp_then (wp_setCondition start_done) fun _ => ?_
  refine wp_then (wp_setCondition start_done) fun _ => ?_
  cases hp : o.policy with
  | upsert => simp [putBy, hw]
  | insert | update => simp [putBy, hw, hk o (by simpa using ho) (by simp [hp])]

theorem keeps_execSetNX (hw : S.writes key) (hk : known key) : S.Keeps known False (execSetNX (key :: args)) := by
  simp [execSetNX, hw, hk]

theorem keeps_setEXBy {factor : Int} (hw : S.writes key) :
    S.Keeps known False (setEXBy factor env (key :: args)) := by
  simp [setEXBy, hw]

theorem fst_mem_pairKeys : ∀ {args : List Bytes} {p : Key × Bytes}, p ∈ pairs args → p.1 ∈ pairKeys args
  | k :: v :: args, p, h => by
    rcases mem_cons.1 h with rfl | h
    · exact mem_cons_self
    · exact mem_cons_of_mem _ (fst_mem_pairKeys h)

theorem wp_putAll {kvs : List (Key × Bytes)} (hw : ∀ p ∈ kvs, S.writes p.1) (hk : ∀ p ∈ kvs, g.known p.1) :
    (fold kvs () fun _ (key, value) => putStr key (some value)).wp S.discipline (fun _ g' => g.strings.Le g') g := by
  refine wp_fold_le (strings_le g) (fun _ ⟨k, v⟩ hp => ?_) fun _ _ => id
  exact ⟨hw _ hp, fun _ _ => strings_le_putStr (hk _ hp)⟩

theorem keeps_execMSet (hw : ∀ k ∈ pairKeys args, S.writes k) (hk : ∀ k ∈ pairKeys args, known k) :
    S.Keeps known False (execMSet args) := by
  simp only [Keeps, execMSet, wp_bind, wp_check]
  refine ⟨fun _ => start_done, fun _ => ?_⟩
  rw [← wp_bind]
  refine wp_seq (wp_putAll (fun p hp => hw _ (fst_mem_pairKeys hp))
    fun p hp => hk _ (fst_mem_pairKeys hp)) fun _ g hg => ?_
  exact ⟨trivial, fun _ _ => hg.done (strings_done.2 start_done)⟩

theorem keeps_execMGet : S.Keeps known False (execMGet args) := by
  refine wp_then (wp_fold_le (.refl _) (fun n k _ => ?_) fun _ _ => id) fun n => ?_
  · simp
  · simp

/-- Keys are looked at, and one of them may end the command. -/
theorem wp_lookAll {keys : List Key} {f : Option Entity → Bool} {r : Reply} (hd : g.Done) :
    (fold keys () fun _ key => do
        let entity ← getEntity key
        check (f entity) r).wp S.discipline
      (fun _ g' => g.Le g' ∧ ∀ k ∈ keys, g'.known k) g := by
  refine wp_fold (fun rest _ g' => g.Le g' ∧ ∀ k ∈ keys, k ∈ rest ∨ g'.known k)
    ⟨.refl g, fun _ => Or.inl⟩ (fun k rest _ g' ⟨hle, hk⟩ => ?_) fun _ g' h => by simpa using h
  have hd' : ∀ k, ¬g'.stale k := hle.done hd
  simp only [wp_bind, wp_perform, wp_check]
  refine ⟨hd' k, fun e _ => ⟨fun _ => by simp [hd'], fun _ => ⟨hle.trans (le_check g' k), ?_⟩⟩⟩
  intro k' hk'
  rcases hk k' hk' with h | h
  · rcases mem_cons.1 h with rfl | h
    · exact Or.inr (Or.inl rfl)
    · exact Or.inl h
  · exact Or.inr (Or.inr h)

theorem keeps_execMSetNX (hw : ∀ k ∈ pairKeys args, S.writes k) : S.Keeps known False (execMSetNX args) := by
  simp only [Keeps, execMSetNX, wp_bind, wp_check]
  refine ⟨fun _ => start_done, fun _ => ?_⟩
  rw [← wp_bind]
  refine wp_seq (wp_lookAll start_done) fun _ g hlook => ?_
  obtain ⟨hg, hk⟩ := hlook
  refine wp_seq (wp_putAll (fun p hp => hw _ (fst_mem_pairKeys hp))
    fun p hp => hk _ (fst_mem_pairKeys hp)) fun _ g' hg' => ?_
  exact ⟨trivial, fun _ _ => hg'.done (strings_done.2 (hg.done start_done))⟩

theorem pairKeys_take : ∀ (n : Nat) (args : List Bytes), pairKeys (args.take (2 * n)) = (pairKeys args).take n
  | 0, _ => by simp [pairKeys]
  | _ + 1, [] => rfl
  | _ + 1, [_] => rfl
  | n + 1, k :: v :: args => by
    change pairKeys (k :: v :: args.take (2 * n)) = k :: (pairKeys args).take n
    rw [pairKeys, pairKeys_take n args]

/-- The end of the pairs of MSETEX: a number of pairs that wraps makes it negative. -/
theorem msetEnd_eq {n : Int} (h1 : 1 ≤ n) (h2 : n < 2 ^ 63) (h : 0 ≤ wrap64 (1 + wrap64 (n * 2))) :
    wrap64 (1 + wrap64 (n * 2)) = 1 + 2 * n := by
  unfold wrap64 at *
  omega

/-- MSETEX writes as many of its keys as its number says. -/
theorem keeps_execMSetEX {n : Bytes} (hw : ∀ m, parseInt n = some m → ∀ k ∈ (pairKeys args).take m.toNat, S.writes k)
    (hk : ∀ m, parseInt n = some m → ∀ k ∈ (pairKeys args).take m.toNat, known k) :
    S.Keeps known False (execMSetEX env (n :: args)) := by
  simp only [Keeps, execMSetEX, wp_bind, wp_check, wp_arg, wp_require, wp_orPanic, wp_orReply]
  refine ⟨fun _ => start_done, fun _ => ⟨by simp, fun t ht => ⟨by simp, fun m hm => ⟨by simp, fun hm1 =>
    ⟨by simp, fun _ => ⟨by simp, fun e he => ⟨by simp, fun o _ => ?_⟩⟩⟩⟩⟩⟩⟩
  obtain ⟨policy, ttl⟩ := o
  obtain rfl : n = t := by simpa using ht
  have hkeys : ∀ p ∈ pairs (((n :: args).take e).drop 1), p.1 ∈ (pairKeys args).take m.toNat := by
    intro p hp
    have hm1 : 1 ≤ m := by simpa using hm1
    split at he
    · cases he
    rename_i hpos
    have hend := msetEnd_eq hm1 (parseInt_range hm).2 (by omega)
    rw [← pairKeys_take]
    have he : e = 2 * m.toNat + 1 := by
      simp only [Option.some.injEq] at he
      omega
    subst he
    exact fst_mem_pairKeys (by simpa using hp)
  -- what is known once strings have been put
  have hset : ∀ t, (fold (pairs (((n :: args).take e).drop 1)) () fun _ p =>
      expire p.1 t).wp S.discipline (fun _ g => (start known False).strings.Le g) (start known False).strings := by
    refine fun t => wp_fold_le (.refl _) (fun _ p hp => ?_) fun _ _ => id
    simp [hw m hm _ (hkeys p hp), hk m hm _ (hkeys p hp)]
  rw [← wp_bind]
  refine wp_seq
    (wp_fold_le (strings_le _) (fun applied p hp => ?_) fun _ _ => id) fun applied g hg =>
      wp_of_le hg done_mono ?_
  · obtain ⟨k, v⟩ := p
    have hwk : S.writes k := hw m hm _ (hkeys _ hp)
    have hkk : (start known False).strings.known k := hk m hm _ (hkeys _ hp)
    cases policy with
    | upsert => exact ⟨hwk, fun _ _ => strings_le_putStr hkk⟩
    | insert | update => exact ⟨⟨hwk, hkk⟩, fun _ _ => .refl _⟩
  · refine wp_then (by simp) fun _ => ?_
    refine wp_then (by simpa using fun _ => hset _) fun _ => ?_
    refine wp_then (by simpa using fun _ => hset _) fun _ => ?_
    simp

/-- INCR and its relatives. -/
theorem keeps_incrWith {name : String} {op : Int → Int} {init : Bytes} {initVal : Int} (hw : S.writes key) :
    S.Keeps known False (incrWith name op init initVal (key :: args)) := by
  simp only [Keeps, incrWith, getAsString, wp_bind, wp_arg, wp_perform, wp_orReply]
  refine ⟨fun _ => start_done, fun k hk => ⟨by simp, fun e _ => ⟨by simp, fun b _ => ?_⟩⟩⟩
  obtain rfl : key = k := by simpa using hk
  cases b with
  | some b => simp [hw]
  | none => simp [hw]

theorem keeps_execIncrBy (hw : S.writes key) : S.Keeps known False (execIncrBy (key :: args)) := by
  simp only [Keeps, execIncrBy, wp_bind, wp_arg, wp_require]
  exact ⟨fun _ => start_done, fun _ _ => ⟨fun _ => start_done, fun _ _ => keeps_incrWith hw⟩⟩

theorem keeps_execDecrBy (hw : S.writes key) : S.Keeps known False (execDecrBy (key :: args)) := by
  simp only [Keeps, execDecrBy, wp_bind, wp_arg, wp_require]
  exact ⟨fun _ => start_done, fun _ _ => ⟨fun _ => start_done, fun _ _ => keeps_incrWith hw⟩⟩

theorem keeps_execIncrByFloat (hw : S.writes key) : S.Keeps known False (execIncrByFloat env (key :: args)) := by
  simp only [Keeps, execIncrByFloat, getAsString, wp_bind, wp_arg, wp_require, wp_perform, wp_orReply]
  refine ⟨fun _ => start_done, fun k hk => ⟨by simp, fun _ _ => ⟨by simp, fun _ _ => ⟨by simp,
    fun e _ => ⟨by simp, fun b _ => ?_⟩⟩⟩⟩⟩
  obtain rfl : key = k := by simpa using hk
  cases b with
  | some b => simp [hw]
  | none => simp [hw]

theorem keeps_getRandomKey (hs : S.scan) : S.Keeps known False (getRandomKey env args) := by
  simp [getRandomKey, hs]

theorem prepareMSetEX_eq {n : Bytes} {m : Int} {rest : List Bytes} {W R : List Key}
    (hm : parseInt n = some m) (h : prepareMSetEX (n :: rest) = some (W, R)) : W = (pairKeys rest).take m.toNat := by
  simp only [prepareMSetEX, hm, makeLen] at h
  split_ifs at h with h1 h2
  · cases h
    have : m.toNat = 0 := by omega
    simp [this]
  · cases h
  · cases h
    rfl

theorem rows_stringCommands : ∀ c ∈ stringCommands, Row S known apart env run c := by
  simp only [stringCommands, forall_mem_cons, not_mem_nil, false_imp_iff, implies_true, and_true]
  refine ⟨?_, ?_, row_of_first rfl keeps_setEXBy, row_of_first rfl keeps_setEXBy, ?_, row_of_any keeps_execMGet,
    ?_, ?_, row_of_any (by simp [execGet]), row_of_first rfl fun hw => by simp [execGetEX, hw],
    row_of_first rfl fun hw => by simp [execGetSet, hw], row_of_first rfl fun hw => by simp [execGetDel, hw],
    row_of_first rfl keeps_incrWith, row_of_first rfl keeps_execIncrBy, row_of_first rfl keeps_execIncrByFloat,
    row_of_first rfl keeps_incrWith, row_of_first rfl keeps_execDecrBy, row_of_any (by simp [execStrLen]),
    row_of_first rfl fun hw => by simp [execAppend, hw], row_of_first rfl fun hw => by simp [execSetRange, hw],
    row_of_any (by simp [execGetRange]), row_of_first rfl fun hw => by simp [execSetBit, writeBit, hw],
    row_of_any (by simp [execGetBit]), row_of_any (by simp [execBitCount, bitRange]),
    row_of_any (by simp [execBitPos, bitRange]), ?_⟩
  · refine row_of_fits rfl fun key rest hfit => keeps_execSet (hfit.writes key mem_cons_self) ?_
    exact fun o ho hp => hfit.unchecked key (mem_unchecked_set ho hp)
  · exact row_of_fits rfl fun key rest hfit => keeps_execSetNX (hfit.writes key mem_cons_self)
      (hfit.unchecked key mem_cons_self)
  · intro args W R _ hprep hfit
    cases hprep
    exact (keeps_execMSet hfit.writes hfit.unchecked).of_false
  · intro args W R _ hprep hfit
    cases hprep
    exact (keeps_execMSetNX hfit.writes).of_false
  · intro args W R harity hprep hfit
    cases args with
    | nil => simp [validateArity] at harity
    | cons n rest =>
      refine (keeps_execMSetEX (fun m hm k hk => hfit.writes k ?_)
        fun m hm k hk => hfit.unchecked k (mem_unchecked_msetex hm hk)).of_false
      rw [prepareMSetEX_eq hm hprep]
      exact hk
  · exact fun args W R _ _ hfit =>
      (@keeps_getRandomKey S known args env (hfit.lists (by decide))).of_false

end strings

/-! ## Bits -/

section bits

attribute [local simp] getAsString

theorem wp_bfSet {b : Bytes} {f : BitField} {val : Int} {g : Access} (hf : ¬g.foreign)
    (hd : g.Done) : (bfSet b f val).wp S.discipline (fun _ g' => g.Le g') g := by
  have hd' : ∀ k, ¬g.stale k := hd
  refine wp_fold_le (.refl g) (fun b i _ => ?_) fun _ _ => id
  simp [writeBit, hf, hd']

theorem wp_bfStep {st : BfState} {op : BfOp} {g : Access} (hf : ¬g.foreign) (hd : g.Done) :
    (bfStep st op).wp S.discipline (fun _ g' => g.Le g') g := by
  have hset : ∀ b f v (results : Bytes → List Reply), (do
      let bytes ← bfSet b f v
      return ({ st with bytes, results := results bytes } : BfState)).wp S.discipline
        (fun _ g' => g.Le g') g := fun b f v results =>
    wp_bind_le le_mono (wp_bfSet hf hd) fun _ => Le.refl g
  cases op with
  | overflow o => exact .refl g
  | get f => simpa [bfStep] using fun _ => hd
  | set f v =>
    simp only [bfStep, wp_bind, wp_orPanic]
    refine ⟨fun _ => hd, fun old _ => ?_⟩
    rw [← wp_bind]
    exact hset _ _ _ fun _ => st.results ++ [.int old]
  | incrby f v =>
    simp only [bfStep, wp_bind, wp_orPanic]
    refine ⟨fun _ => hd, fun old _ => ?_⟩
    cases bfIncrby f old v st.overflow with
    | none => exact .refl g
    | some v => exact hset _ _ _ fun _ => st.results ++ [.int v]
  | refuse r => exact hd

/-- BITFIELD writes into the string in place. -/
theorem keeps_execBitfield (hw : S.writes key) (ha : apart) : S.Keeps known apart (execBitfield (key :: args)) := by
  have hloop : ∀ {ops : List BfOp} {st : BfState} {g : Access}, ¬g.foreign → g.Done →
      (fold ops st bfStep).wp S.discipline (fun _ g' => g.Le g') g := fun hf hd =>
    wp_fold_le (.refl _) (fun st op _ => wp_bfStep hf hd) fun _ _ => id
  simp only [Keeps, execBitfield, getAs, wp_bind, wp_check, wp_arg, wp_perform, wp_orReply, wp_ite]
  refine ⟨fun _ => start_done, fun _ => ⟨by simp, fun k hk => ⟨by simp, fun e _ => ⟨by simp, fun b _ =>
    ⟨fun _ => ?_, fun _ => ?_⟩⟩⟩⟩⟩
  all_goals obtain rfl : key = k := by simpa using hk
  · refine ⟨by simp, fun _ _ => wp_mono (fun st g hg => ?_) (hloop (by simp) (by simp))⟩
    have hk := hg.known key (by simp)
    have hf : ¬g.foreign := fun h => by simpa using hg.foreign h
    have hd : ∀ k, ¬g.stale k := hg.done (by simp)
    simp [hw, hd, hk, hf]
  · refine ⟨by simp, fun _ _ => wp_mono (fun st g hg => ?_) (hloop (by simp [hw]) (by simp))⟩
    have hf : ¬g.foreign := fun h => by simpa [hw] using hg.foreign h
    have hd : ∀ k, ¬g.stale k := hg.done (by simp)
    simp [hw, hd, hf, hg.apart ha]

theorem keeps_execBitOp {op : Bytes} (hw : S.writes dest) (hk : known dest) :
    S.Keeps known False (execBitOp (op :: dest :: args)) := by
  simp only [Keeps, execBitOp, wp_bind, wp_check, wp_arg, wp_require]
  refine ⟨fun _ => start_done, fun _ => ⟨by simp, fun o _ => ⟨by simp, fun d hd => ⟨by simp, fun f _ =>
    ⟨by simp, fun _ => ?_⟩⟩⟩⟩⟩
  obtain rfl : dest = d := by simpa using hd
  rw [← wp_bind]
  refine wp_then (wp_fold_le (.refl _) (fun srcs k _ => ?_) fun _ _ => id) fun srcs => ?_
  · simp [getAsString]
  · simp [hw, hk]

theorem rows_bitfieldCommands : ∀ c ∈ bitfieldCommands, Row S known apart env run c := by
  simp only [bitfieldCommands, forall_mem_cons, not_mem_nil, false_imp_iff, implies_true, and_true]
  refine ⟨?_, row_of_any (by simp [execBitfieldRO])⟩
  · intro args W R _ hprep hfit
    cases args with
    | nil => cases hprep
    | cons key rest =>
      cases hprep
      exact keeps_execBitfield (hfit.writes key mem_cons_self) (hfit.apart rfl)

theorem rows_bitOpCommands : ∀ c ∈ bitOpCommands, Row S known apart env run c := by
  simp only [bitOpCommands, forall_mem_cons, not_mem_nil, false_imp_iff, implies_true, and_true]
  intro args W R harity hprep hfit
  obtain _ | ⟨op, _ | ⟨dest, rest⟩⟩ := args
  · simp [validateArity] at harity
  · simp [validateArity] at harity
  · cases hprep
    exact (keeps_execBitOp (hfit.writes dest mem_cons_self) (hfit.unchecked dest mem_cons_self)).of_false

end bits

end Hayakv.Frame
