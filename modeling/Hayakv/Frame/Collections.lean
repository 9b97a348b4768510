import Hayakv.Frame.Rows

/-!
# How the commands on lists, hashes, sets and sorted sets access keys

They look at the expiry of every key they use; of the commands that store a result under a key, the
set operations do so without a look at its expiry.
-/

namespace Hayakv.Frame

open Engine Cmd Access Scope List Exec
open Prog (wp_bind wp_ite)

attribute [local simp] Keeps Scope.discipline Scope.ok Scope.ans Scope.next Access.Done Le.refl le_check Classical.em

variable {S : Scope} {known : Key → Prop} {apart : Prop} {key src dest : Key} {args : List Bytes} {env : Env}
  {run : CmdLine → Exec Reply}

/-! ## Lists -/

section lists

attribute [local simp] getAsList getAs getOrInitList loadAs

variable {name : String}

/-- LPOP and RPOP. -/
theorem keeps_popBy {left : Bool} (hw : S.writes key) : S.Keeps known False (popBy name left (key :: args)) := by
  simp [popBy, hw]

theorem keeps_pushBy {push : EncodingThresholds → ListObj → List Bytes → ListObj} (hw : S.writes key) :
    S.Keeps known False (pushBy name push env (key :: args)) := by
  simp [pushBy, hw]

theorem keeps_execRPopLPush (hs : S.writes src) (hd : S.writes dest) :
    S.Keeps known False (execRPopLPush env (src :: dest :: args)) := by
  simp [execRPopLPush, hs, hd]

/-- BLPOP and BRPOP, at the first key with an element. -/
theorem keeps_blockPopBy {left : Bool} (hw : ∀ k ∈ args.dropLast, S.writes k) :
    S.Keeps known False (blockPopBy name left args) := by
  refine wp_then (wp_fold_le (.refl _) (fun _ k hk => ?_) fun _ _ => id) (by simp)
  simp [hw k hk]

theorem countedKeys_eq {n : Bytes} {m : Int} {keys : List Key} (h : countedKeys args = some keys)
    (hn : args[0]? = some n) (hm : parseInt n = some m) (h1 : 1 ≤ m) : (args.drop 1).take m.toNat = keys := by
  obtain ⟨rest, rfl⟩ : ∃ rest, args = n :: rest := by
    cases args with
    | nil => cases hn
    | cons a rest => exact ⟨rest, by simpa using hn⟩
  have hlt : ¬m < 1 := by omega
  simp only [countedKeys, hm, hlt, if_false] at h
  split at h
  · cases h
  · simpa using h

/-- LMPOP and ZMPOP. -/
theorem keeps_mpop (env : Env) {keys : List Key} (hn : countedKeys args = some keys) (hw : ∀ k ∈ keys, S.writes k) :
    S.Keeps known False (execLMPop args) ∧ S.Keeps known False (execZMPop env args) := by
  constructor
  all_goals
    simp only [Keeps, execLMPop, execZMPop, wp_bind, wp_check, wp_arg, wp_require, wp_orReply]
    refine ⟨by simp, fun _ => ⟨by simp, fun n hn' => ⟨by simp, fun m hm => ⟨by simp, fun hm1 => ⟨by simp,
      fun _ => ⟨by simp, fun dir _ => ⟨by simp, fun _ => ⟨by simp, fun c _ => ?_⟩⟩⟩⟩⟩⟩⟩⟩
    rw [← wp_bind]
    refine wp_then (wp_fold_le (.refl _) (fun _ k hk => ?_) fun _ _ => id) (by simp)
    have := hw k (countedKeys_eq hn hn' hm (by simpa using hm1) ▸ hk)
    simp [this, getAsZSet]

theorem rows_listCommands : ∀ c ∈ listCommands, Row S known apart env run c := by
  simp only [listCommands, forall_mem_cons, not_mem_nil, false_imp_iff, implies_true, and_true]
  refine ⟨row_of_any (by simp [execLPos]), ?_, row_of_first rfl keeps_pushBy,
    row_of_first rfl fun hw => by simp [execLPushX, pushXBy, hw], row_of_first rfl keeps_pushBy,
    row_of_first rfl fun hw => by simp [execRPushX, pushXBy, hw], row_of_first rfl keeps_popBy,
    row_of_first rfl keeps_popBy, ?_, row_of_first rfl fun hw => by simp [execLRem, hw],
    row_of_any (by simp [execLLen]), row_of_any (by simp [execLIndex]),
    row_of_first rfl fun hw => by simp [execLSet, hw], row_of_any (by simp [execLRange]),
    row_of_first rfl fun hw => by simp [execLTrim, hw], row_of_first rfl fun hw => by simp [execLInsert, hw],
    ?_, ?_⟩
  · exact row_of_counted rfl fun hn hw => (keeps_mpop env hn hw).1
  · intro args W R _ hprep hfit
    obtain _ | ⟨src, _ | ⟨dest, rest⟩⟩ := args
    · cases hprep
    · cases hprep
    · cases hprep
      exact (keeps_execRPopLPush (hfit.writes src (by simp)) (hfit.writes dest (by simp))).of_false
  · exact row_of_blocking rfl keeps_blockPopBy
  · exact row_of_blocking rfl keeps_blockPopBy

end lists

/-! ## Hashes -/

section hashes

attribute [local simp] getAsHash getAs getOrInitHash

theorem keeps_execHMSet (hw : S.writes key) : S.Keeps known False (execHMSet env (key :: args)) := by
  simp [execHMSet, hw]

/-- Commands that answer from a hash. -/
theorem keeps_readHash {absent : Reply} {answer : HashObj → Reply} :
    S.Keeps known False (readHash env args absent answer) := by
  simp [readHash]

/-- HGETEX declares its key as one that it reads, and sets the expiry of fields. -/
theorem keeps_execHGetEx (hw : S.writes key ∨ S.absent key ∨
      ∀ ttl rest, parseHGetEx 0 args = .ok (ttl, rest) → ttl ≤ 0 ∧ ttl ≠ -1) :
    S.Keeps known False (execHGetEx env (key :: args)) := by
  rcases hw with hw | ha | ht
  · simp [execHGetEx, hw]
  · simp +contextual [execHGetEx, ha]
  · simp only [Keeps, execHGetEx, wp_bind, wp_arg, wp_orReply, wp_orExit]
    refine ⟨by simp, fun k _ => ⟨by simp, fun o ho => ⟨by simp, fun fields _ => ?_⟩⟩⟩
    obtain ⟨hpos, hneg⟩ := ht o.1 o.2 (by simpa using ho)
    simp [hpos, hneg]

/-- HEXPIRE and its relatives. -/
theorem keeps_hexpireBy {name : String} {expireAtMs : Int → Int} (hw : S.writes key) :
    S.Keeps known False (hexpireBy name expireAtMs env (key :: args)) := by
  simp [hexpireBy, hw]

theorem keeps_httlBy {answer : Int → Int} : S.Keeps known False (httlBy answer env args) := by
  simp [httlBy]

theorem keeps_execHPersist (hw : S.writes key) : S.Keeps known False (execHPersist env (key :: args)) := by
  rw [Keeps, execHPersist, arg_zero_bind]
  refine wp_then (by simp) fun fields => ?_
  refine wp_then (by simp) fun hash => ?_
  cases hash <;> simp [hw]

theorem rows_hashCommands : ∀ c ∈ hashCommands, Row S known apart env run c := by
  simp only [hashCommands, forall_mem_cons, not_mem_nil, false_imp_iff, implies_true, and_true]
  exact ⟨row_of_first rfl fun hw => by simp [execHSet, hw], row_of_first rfl fun hw => by simp [execHSetNX, hw],
    row_of_any (by simp [execHGet, readHash]), row_of_any (by simp [execHExists, readHash]),
    row_of_first rfl fun hw => by simp [execHDel, hw], row_of_any keeps_readHash,
    row_of_any (by simp [execHStrlen, readHash]), row_of_first rfl keeps_execHMSet, row_of_any keeps_readHash,
    row_of_any keeps_readHash, row_of_any keeps_readHash, row_of_any keeps_readHash,
    row_of_first rfl fun hw => by simp [execHIncrBy, hincrBy, hw],
    row_of_first rfl fun hw => by simp [execHIncrByFloat, hincrBy, hw], row_of_any (by simp [execHRandField]),
    row_of_any (by simp [execHScan])⟩

theorem rows_hashTTLCommands : ∀ c ∈ hashTTLCommands, Row S known apart env run c := by
  simp only [hashTTLCommands, forall_mem_cons, not_mem_nil, false_imp_iff, implies_true, and_true]
  refine ⟨?_, row_of_first rfl fun hw => by simp [execHGetDel, hw],
    row_of_first rfl fun hw => by simp [execHSetEx, hw], row_of_first rfl keeps_hexpireBy,
    row_of_first rfl keeps_hexpireBy, row_of_first rfl keeps_hexpireBy, row_of_first rfl keeps_hexpireBy,
    row_of_any keeps_httlBy, row_of_any keeps_httlBy, row_of_any keeps_httlBy, row_of_any keeps_httlBy,
    row_of_first rfl keeps_execHPersist⟩
  · intro args W R harity _ hfit
    cases args with
    | nil => simp [validateArity] at harity
    | cons key rest =>
      refine (keeps_execHGetEx ?_).of_false
      by_cases ht : ∀ ttl rest', parseHGetEx 0 rest = .ok (ttl, rest') → ttl ≤ 0 ∧ ttl ≠ -1
      · exact Or.inr (Or.inr ht)
      · push Not at ht
        obtain ⟨ttl, rest', hp, ht⟩ := ht
        exact (hfit.undeclared key (mem_undeclared_hgetex hp (by omega))).imp_right Or.inl

end hashes

/-! ## Sets -/

section sets

attribute [local simp] getAsSet getAs getOrInitSet readSet

theorem keeps_execSAdd (hw : S.writes key) : S.Keeps known False (execSAdd env (key :: args)) := by
  simp [execSAdd, hw]

variable {g : Access}

theorem wp_randomDistinctMembers {s : SetObj} {limit : Nat} :
    (randomDistinctMembers s limit).wp S.discipline (fun _ g' => g.Le g') g := by
  refine wp_bind_le le_mono (wp_fold_le (.refl _) (fun _ _ _ => ?_) fun _ _ => id) fun _ => Le.refl _
  simp

theorem wp_randomMembers {s : SetObj} {limit : Nat} :
    (randomMembers s limit).wp S.discipline (fun _ g' => g.Le g') g := by
  rw [randomMembers, wp_ite]
  refine ⟨fun _ => .refl g, fun _ => wp_fold_le (.refl _) (fun _ _ _ => ?_) fun _ _ => id⟩
  simp

theorem keeps_execSPop (hw : S.writes key) : S.Keeps known False (execSPop env (key :: args)) := by
  simp only [Keeps, execSPop, getAsSet, getAs, wp_bind, wp_check, wp_arg, Prog.wp_perform, wp_require, wp_orReply]
  refine ⟨by simp, fun _ => ⟨by simp, fun k hk => ⟨by simp, fun e _ => ⟨by simp, fun r _ => ⟨by simp,
    fun set _ => ⟨by simp, fun c _ => ⟨by simp, fun _ => ?_⟩⟩⟩⟩⟩⟩⟩
  obtain rfl : key = k := by simpa using hk
  rw [← wp_bind]
  refine wp_then wp_randomDistinctMembers fun members => ?_
  simp [hw]

theorem keeps_execSRandMember : S.Keeps known False (execSRandMember env args) := by
  simp only [Keeps, execSRandMember, getAsSet, getAs, wp_bind, wp_check, wp_arg,
    Prog.wp_perform, wp_require, wp_orReply]
  refine ⟨by simp, fun _ => ⟨by simp, fun k hk => ⟨by simp, fun e _ => ⟨by simp, fun r _ => ⟨by simp,
    fun set _ => ?_⟩⟩⟩⟩⟩
  simp only [wp_ite, wp_bind, wp_arg, wp_require, wp_orPanic]
  refine ⟨fun _ => ?_, fun _ => ⟨by simp, fun t _ => ⟨by simp, fun c _ => ⟨fun _ => ?_, fun _ =>
    ⟨fun _ => ⟨by simp, fun limit _ => ?_⟩, by simp⟩⟩⟩⟩⟩
  · rw [← wp_bind]
    exact wp_then wp_randomMembers (by simp)
  · rw [← wp_bind]
    exact wp_then wp_randomDistinctMembers (by simp)
  · rw [← wp_bind]
    exact wp_then wp_randomMembers (by simp)

/-- The sets of all keys; the first empty one may end the command. -/
theorem wp_getSets {stop : Option Reply} {keys : List Key} (hd : g.Done) :
    (getSets env stop keys).wp S.discipline (fun _ g' => g.Le g') g := by
  have hd' : ∀ k, ¬g.stale k := hd
  refine wp_fold_le (.refl _) (fun _ _ _ => ?_) fun _ _ => id
  simp [hd']

/-- Of all sets at once, SINTER, SUNION and SDIFF only read. -/
theorem keeps_getSets {stop : Option Reply} {answer : List SetObj → Reply} :
    S.Keeps known False (getSets env stop args >>= fun sets => pure (answer sets)) :=
  wp_then (wp_getSets start_done) fun _ => start_done

theorem keeps_execSInterStore (hw : S.writes dest) (hk : known dest) :
    S.Keeps known False (execSInterStore env (dest :: args)) := by
  rw [Keeps, execSInterStore, arg_zero_bind]
  refine wp_then (wp_getSets start_done) fun _ => ?_
  simp [hw, hk]

theorem keeps_setStoreBy {name : String} {op : EncodingThresholds → List SetObj → SetObj}
    (hw : S.writes dest) : S.Keeps known False (setStoreBy name op env (dest :: args)) := by
  rw [Keeps, setStoreBy, arg_zero_bind]
  refine wp_then (wp_getSets start_done) fun _ => ?_
  simp [hw]

theorem keeps_execSInterCard : S.Keeps known False (execSInterCard env args) := by
  simp only [Keeps, execSInterCard, wp_bind, wp_check, wp_arg, wp_require, wp_orPanic, wp_orReply]
  refine ⟨by simp, fun _ => ⟨by simp, fun t _ => ⟨by simp, fun n _ => ⟨by simp, fun _ => ⟨by simp,
    fun _ => ⟨by simp, fun m _ => ⟨by simp, fun l _ => ?_⟩⟩⟩⟩⟩⟩⟩
  rw [← wp_bind]
  exact wp_then (wp_getSets (by simp)) (by simp)

theorem rows_setCommands : ∀ c ∈ setCommands, Row S known apart env run c := by
  simp only [setCommands, forall_mem_cons, not_mem_nil, false_imp_iff, implies_true, and_true]
  refine ⟨row_of_any (by simp [execSMIsMember]), row_of_any keeps_execSInterCard,
    row_of_first rfl keeps_execSAdd, row_of_any (by simp [execSIsMember]),
    row_of_first rfl fun hw => by simp [execSRem, hw], row_of_first rfl keeps_execSPop,
    row_of_any (by simp [execSCard]), row_of_any (by simp [execSMembers]), row_of_any keeps_getSets, ?_,
    row_of_any keeps_getSets, ?_, row_of_any keeps_getSets, ?_, row_of_any keeps_execSRandMember,
    row_of_any (by simp [execSScan])⟩
  · exact row_of_store rfl fun dest rest hfit =>
      keeps_execSInterStore (hfit.writes dest mem_cons_self) (hfit.unchecked dest mem_cons_self)
  · exact row_of_store rfl fun dest rest hfit => keeps_setStoreBy (hfit.writes dest mem_cons_self)
  · exact row_of_store rfl fun dest rest hfit => keeps_setStoreBy (hfit.writes dest mem_cons_self)

end sets

/-! ## Sorted sets -/

section sortedSets

attribute [local simp] getAsZSet getAs getOrInitZSet

theorem keeps_execZAdd (hw : S.writes key) : S.Keeps known False (execZAdd env (key :: args)) := by
  simp [execZAdd, hw]

variable {desc : Bool}

/-- ZRANK and ZREVRANK. -/
theorem keeps_rankBy : S.Keeps known False (rankBy desc env args) := by
  simp [rankBy, readZSet]

theorem keeps_zrangeBy {name : String} {fold : Bytes → Bytes} :
    S.Keeps known False (zrangeBy name fold desc env args) := by
  simp [zrangeBy, range0]

theorem keeps_rangeByScoreBy : S.Keeps known False (rangeByScoreBy desc env args) := by
  simp [rangeByScoreBy]

theorem keeps_rangeByLexBy : S.Keeps known False (rangeByLexBy desc env args) := by
  simp [rangeByLexBy]

theorem rows_sortedSetCommands : ∀ c ∈ sortedSetCommands, Row S known apart env run c := by
  simp only [sortedSetCommands, forall_mem_cons, not_mem_nil, false_imp_iff, implies_true, and_true]
  refine ⟨?_, row_of_first rfl keeps_execZAdd, row_of_any (by simp [execZScore, readZSet]),
    row_of_first rfl fun hw => by simp [execZIncrBy, hw], row_of_any keeps_rankBy,
    row_of_any (by simp [execZCount]), row_of_any keeps_rankBy, row_of_any (by simp [execZCard, readZSet]),
    row_of_any keeps_zrangeBy, row_of_any keeps_rangeByScoreBy, row_of_any keeps_zrangeBy,
    row_of_any keeps_rangeByScoreBy, row_of_first rfl fun hw => by simp [execZPopMin, hw],
    row_of_first rfl fun hw => by simp [execZRem, hw],
    row_of_first rfl fun hw => by simp [execZRemRangeByScore, hw],
    row_of_first rfl fun hw => by simp [execZRemRangeByRank, hw], row_of_any (by simp [execZLexCount]),
    row_of_any keeps_rangeByLexBy, row_of_first rfl fun hw => by simp [execZRemRangeByLex, hw],
    row_of_any keeps_rangeByLexBy, row_of_any (by simp [execZScan])⟩
  · exact row_of_counted rfl fun hn hw => (keeps_mpop env hn hw).2

end sortedSets

/-! ## Places -/

section places

attribute [local simp] getAsZSet getAs getOrInitZSet

theorem rows_geoCommands : ∀ c ∈ geoCommands, Row S known apart env run c := by
  simp only [geoCommands, forall_mem_cons, not_mem_nil, false_imp_iff, implies_true, and_true]
  exact ⟨row_of_first rfl fun hw => by simp [execGeoAdd, hw], row_of_any (by simp [execGeoPos]),
    row_of_any (by simp [execGeoDist]), row_of_any (by simp [execGeoHash]),
    row_of_any (by simp [execGeoRadius]), row_of_any (by simp [execGeoRadiusByMember])⟩

end places

end Hayakv.Frame
