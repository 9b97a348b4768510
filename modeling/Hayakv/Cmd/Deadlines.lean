import Hayakv.Cmd.HashTTL

/-!
# One meaning of the expiry options

EXPIRE and HEXPIRE decide by two procedures whether NX, XX, GT and LT let a new expiry in. Both are
measured against one meaning of the options.
-/

namespace Hayakv.Cmd

open Engine Engine.Exec

/-- What the options ask, where no expiry is later than every time. -/
def ExpireOpts.Permits (opts : ExpireOpts) (current : Option Int) (new : Int) : Prop :=
  (opts.nx → current = .none) ∧ (opts.xx → current ≠ .none) ∧ (opts.gt → ∃ t ∈ current, t < new) ∧
    (opts.lt → ∀ t ∈ current, new < t)

theorem checkExpireOption_iff (ttl : Option Int) (opts : ExpireOpts) (new : Int) :
    checkExpireOption ttl opts new = true ↔ opts.Permits ttl new := by
  obtain ⟨nx, xx, gt, lt⟩ := opts
  cases ttl <;> cases nx <;> cases xx <;> cases gt <;> cases lt <;> simp [checkExpireOption, ExpireOpts.Permits]

/-- The two procedures differ in GT on what has no expiry. -/
theorem checkHFieldExpireOption_eq {current : Option Int} {opts : ExpireOpts} {new : Int}
    (h : ¬(opts.gt = true ∧ opts.xx = false ∧ current = none)) :
    checkHFieldExpireOption current opts new = checkExpireOption current opts new := by
  cases current with
  | some t => rfl
  | none =>
    simp only [checkHFieldExpireOption, checkExpireOption]
    revert h
    cases opts.gt <;> cases opts.xx <;> simp

/-- What is asked of EXPIRE and its kin on a key that is there: the new expiry counts if the options
let it in, and a time that is past makes the key absent. -/
def KeyExpiryMeans (env : Env) (opts : ExpireOpts) (new : Int) (key : Key) (s : State)
    (r : Except Exit Reply × State) : Prop :=
  (opts.Permits (s.ttl.lookup key) new → r.1 = .ok (.int 1) ∧ r.2.ttl.lookup key = some new ∧
    (new < env.now → (r.2.getEntity env.now key).1 = none)) ∧
  (¬opts.Permits (s.ttl.lookup key) new → r.1 = .error (.reply (.int 0)) ∧ r.2.ttl.lookup key = s.ttl.lookup key)

theorem ttl_getEntity {s s' : State} {now : Int} {key : Key} {e : Entity}
    (h : s.getEntity now key = (some e, s')) : s'.ttl = s.ttl := by
  unfold State.getEntity at h
  split at h
  case h_1 => cases h
  case h_2 =>
    split at h
    · cases h
    · split at h
      · exact (congrArg (fun p => p.2.ttl) h).symm
      · cases h

theorem getEntity_of_past {s : State} {now t : Int} {key : Key} (h : s.ttl.lookup key = some t) (ht : t < now) :
    (s.getEntity now key).1 = none := by
  have hexp : s.expired now key = true := by simp [State.expired, h, ht]
  unfold State.getEntity
  split
  · rfl
  · simp [hexp]

theorem expireBy_means {env : Env} {time : Int → Int} {key text : Bytes} {rest : List Bytes} {raw : Int}
    {opts : ExpireOpts} {s s' : State} {e : Entity} (hraw : parseInt text = some raw)
    (hopts : parseExpireOption rest = .ok opts) (hs : s.getEntity env.now key = (some e, s')) :
    KeyExpiryMeans env opts (time raw) key s ((expireBy time (key :: text :: rest)).run (handle env) s) := by
  have httl := ttl_getEntity hs
  have hrun : (expireBy time (key :: text :: rest)).run (handle env) s =
      if checkExpireOption (s.ttl.lookup key) opts (time raw) then
        (.ok (.int 1), { s' with
          ttl := putField key (time raw) s.ttl, aof := s'.aof ++ [makeExpireCmd key (time raw)] })
      else (.error (.reply (.int 0)), s') := by
    by_cases hc : checkExpireOption (s.ttl.lookup key) opts (time raw) <;>
      simp [expireBy, arg, orPanic, require, check, orReply, hraw, hopts, Bind.bind, Prog.bind, Pure.pure,
        Prog.perform, Prog.run, handle, hs, httl, hc, reply]
  rw [hrun, KeyExpiryMeans, ← checkExpireOption_iff]
  by_cases hc : checkExpireOption (s.ttl.lookup key) opts (time raw)
  · have hnew : (putField key (time raw) s.ttl).lookup key = some (time raw) := by simp [lookup_putField]
    simp only [hc, if_true, hnew, true_and, not_true_eq_false, false_implies, and_true, forall_const]
    exact getEntity_of_past hnew
  · simp [hc, httl]

/-! ## Fields -/

/-- What is asked of HEXPIRE and its kin on a field that is there. Whether a field is absent is seen
by two kinds of commands: those that purge the hash first, and those that may create it and do not. -/
def FieldExpiryMeans (opts : ExpireOpts) (new nowMs : Int) (h : HashObj) (f : Bytes) : Prop :=
  let r := hExpireFields opts new h [f]
  (opts.Permits (h.getFieldExpire f) new → r.2 = [.int 1] ∧ r.1.getFieldExpire f = some new ∧
    (new < nowMs → (r.1.purgeExpiredFields nowMs).get f = none ∧ r.1.get f = none)) ∧
  (¬opts.Permits (h.getFieldExpire f) new → r.2 = [.int 0] ∧ r.1.getFieldExpire f = h.getFieldExpire f)

theorem get_purge_setFieldExpire (h : HashObj) (f : Bytes) {new nowMs : Int} (hnew : new ≤ nowMs) :
    ((h.setFieldExpire f new).purgeExpiredFields nowMs).get f = none := by
  have hf : f ∈ (h.setFieldExpire f new).expiredFields nowMs := by
    obtain ⟨as, bs, heq, -⟩ := List.lookup_eq_some_iff.1 ((lookup_putField f f new h.fieldExpire).trans (if_pos rfl))
    simp [HashObj.setFieldExpire, HashObj.expiredFields, heq, hnew]
  simp only [HashObj.get, HashObj.purgeExpiredFields, List.lookup_eq_none_iff, List.mem_filter,
    decide_eq_true_eq, bne_iff_ne]
  rintro p ⟨-, hp⟩ rfl
  exact hp hf

end Hayakv.Cmd
