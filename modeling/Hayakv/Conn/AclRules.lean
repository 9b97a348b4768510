import Mathlib.Data.List.Induction
import Hayakv.Conn.Acl

/-!
# What a history of ACL rules says

The rules a user has been given, the newest first, against what `ApplyRules` makes of them. The source keeps rules
by name apart from the rules for all commands, and they win however old they are; no category has commands; the
rules before an invalid one stay applied.
-/

namespace Hayakv.Acl

open List User

inductive Rule
  | flag (on : Bool)
  | nopass
  | resetpass
  | pass (hash : Bytes) (plain : Bool)
  | allkeys
  | keys (p : KeyPattern)
  | allchannels
  | channel (pat : Bytes)
  | all (allow : Bool)
  | category (name : Bytes) (allow : Bool)
  | command (name : Bytes) (allow : Bool)
  | reset

namespace Rule

variable (lib : Lib)

/-- The rule that a text stands for; `none` for an invalid one. -/
def parse (r : Bytes) : Option Rule :=
  if r = "on" then some (.flag true)
  else if r = "off" then some (.flag false)
  else if r = "nopass" then some .nopass
  else if r = "resetpass" then some .resetpass
  else if ">" <+: r then some (.pass (lib.sha256hex (r.drop 1)) true)
  else if "#" <+: r then some (.pass (toLower (r.drop 1)) false)
  else if r = "~*" ∨ r = "allkeys" then some .allkeys
  else if "%R~" <+: r then some (.keys ⟨r.drop 3, true, false⟩)
  else if "%W~" <+: r then some (.keys ⟨r.drop 3, false, true⟩)
  else if "~" <+: r then some (.keys ⟨r.drop 1, true, true⟩)
  else if r = "&*" ∨ r = "allchannels" then some .allchannels
  else if "&" <+: r then some (.channel (r.drop 1))
  else if r = "+@all" ∨ r = "allcommands" then some (.all true)
  else if r = "-@all" ∨ r = "nocommands" then some (.all false)
  else if "+@" <+: r then some (.category (r.drop 2) true)
  else if "-@" <+: r then some (.category (r.drop 2) false)
  else if "+" <+: r then some (.command (toLower (r.drop 1)) true)
  else if "-" <+: r then some (.command (toLower (r.drop 1)) false)
  else if r = "reset" then some .reset
  else none

def apply (u : User) : Rule → User
  | flag on => { u with enabled := on }
  | nopass => { u with noPass := true, passHashes := [] }
  | resetpass => { u with noPass := false, passHashes := [] }
  | pass hash plain => { u with noPass := !plain && u.noPass, passHashes := hash :: u.passHashes }
  | allkeys => { u with allKeys := true }
  | keys p => { u with keyPats := u.keyPats ++ [p] }
  | allchannels => { u with allChans := true }
  | channel pat => { u with chanPats := u.chanPats ++ [pat] }
  | all true => { u with allCmds := true }
  | all false => { u with allCmds := false, cmdAllow := [] }
  | category .. => u
  | command name allow => { u with cmdAllow := Engine.putField name allow u.cmdAllow }
  | reset => { name := u.name }

variable {lib}

theorem applyRule_eq (u : User) (r : Bytes) : u.applyRule lib r = (parse lib r).map (apply u) := by
  simp only [applyRule, parse, ite_or, apply_ite (Option.map (apply u)), Option.map_some, Option.map_none,
    apply, Bool.not_true, Bool.not_false, Bool.false_and, Bool.true_and]

variable (lib) in
/-- The rules up to the first invalid one. -/
def accepted : List Bytes → List Rule
  | [] => []
  | r :: rules => (parse lib r).elim [] fun rule => rule :: accepted rules

theorem applyRules_eq (u : User) (rules : List Bytes) : u.applyRules lib rules = (accepted lib rules).foldl apply u := by
  induction rules generalizing u with
  | nil => rfl
  | cons r rules ih =>
    rw [applyRules, accepted, applyRule_eq]
    cases parse lib r with
    | none => rfl
    | some rule => exact ih _

def made (name : Bytes) (h : List Rule) : User := h.foldr (fun r u => apply u r) { name }

/-! ## Commands -/

variable (contains : Bytes → Bytes → Bool) (c : Bytes)

def byName : Rule → Option Bool
  | command name allow => if name = c then some allow else none
  | _ => none

/-- Whether a rule that mentions the command allows it. -/
def mention : Rule → Option Bool
  | all allow => some allow
  | category name allow => if contains name c then some allow else none
  | command name allow => if name = c then some allow else none
  | reset => some false
  | _ => none

def clears : Rule → Bool
  | all allow => !allow
  | reset => true
  | _ => false

variable (h : List Rule)

def since : List Rule := h.takeWhile (!·.clears)

theorem since_cons (r : Rule) (h : List Rule) : since (r :: h) = if r.clears then [] else r :: since h := by
  cases hr : r.clears <;> simp [since, hr]

theorem commands_foldr (name : Bytes) : let u := made name h
    u.cmdAllow.lookup c = (since h).findSome? (byName c) ∧ (u.allCmds = true ↔ .all true ∈ since h) := by
  induction h with
  | nil => simp [since, made]
  | cons r h ih =>
    rw [made, foldr_cons, ← made]
    generalize made name h = u at ih ⊢
    obtain ⟨hown, hall⟩ := ih
    cases r with
    | all allow => cases allow <;> simp [since_cons, clears, apply, byName, findSome?_cons, hown]
    | command n allow =>
      by_cases hn : n = c
      · simp [since_cons, clears, apply, byName, Engine.lookup_putField, hn, hall]
      · simp [since_cons, clears, apply, byName, Engine.lookup_putField, hn, Ne.symm hn, hown, hall]
    | _ => simp [since_cons, clears, apply, byName, findSome?_cons, hown, hall]

theorem mention_since :
    h.findSome? (mention contains c) = some true ↔ (since h).findSome? (mention contains c) = some true := by
  induction h with
  | nil => rfl
  | cons r h ih =>
    rw [since_cons, findSome?_cons]
    cases hr : r.clears with
    | true =>
      have hno : mention contains c r = some false := by cases r <;> simp_all [clears, mention]
      simp [hno]
    | false =>
      rw [if_neg Bool.false_ne_true, findSome?_cons]
      cases mention contains c r with
      | none => exact ih
      | some b => rfl

theorem mention_of_byName {h : List Rule} {b : Bool} (hb : h.findSome? (byName c) = some b) :
    ∃ b', h.findSome? (mention contains c) = some b' := by
  obtain ⟨r, hr, hrb⟩ := exists_of_findSome?_eq_some hb
  refine Option.isSome_iff_exists.1 (findSome?_isSome_iff.2 ⟨r, hr, ?_⟩)
  cases r with
  | command n allow => by_cases hn : n = c <;> simp_all [byName, mention]
  | _ => cases hrb

/-- The newest rule that mentions the command says the same as the newest one by name; without one by name, it allows
the command if and only if there is one that allows all. -/
def Agrees : Prop :=
  match h.findSome? (byName c) with
  | some allow => h.findSome? (mention contains c) = some allow
  | none => h.findSome? (mention contains c) = some true ↔ .all true ∈ h

theorem canRunCommand_iff (name : Bytes) : ((made name h).canRunCommand c = true ↔
      h.findSome? (mention contains (toLower c)) = some true) ↔ Agrees contains (toLower c) (since h) := by
  obtain ⟨hown, hall⟩ := commands_foldr (toLower c) h name
  rw [mention_since, Agrees, canRunCommand, hown]
  cases hb : (since h).findSome? (byName (toLower c)) with
  | none => simp only [Option.getD_none, hall, iff_comm]
  | some b =>
    obtain ⟨b', hb'⟩ := mention_of_byName contains (toLower c) hb
    cases b <;> cases b' <;> simp [hb']

/-! ## Passwords -/

/-- Whether a rule lets any password in, or no longer. -/
def anyPass : Rule → Option Bool
  | nopass => some true
  | resetpass | reset | pass _ true => some false
  | _ => none

def forgets : Rule → Bool
  | nopass | resetpass | reset => true
  | _ => false

def gives (hash : Bytes) : Rule → Bool
  | pass x _ => x = hash
  | _ => false

theorem passwords_foldr (hash : Bytes) (h : List Rule) (name : Bytes) : let u := made name h
    (u.noPass = true ↔ h.findSome? anyPass = some true) ∧
      (hash ∈ u.passHashes ↔ (h.takeWhile (!·.forgets)).any (gives hash)) := by
  induction h with
  | nil => simp [made]
  | cons r h ih =>
    rw [made, foldr_cons, ← made]
    generalize made name h = u at ih ⊢
    obtain ⟨hany, hmem⟩ := ih
    cases r with
    | all allow => cases allow <;> simp [apply, anyPass, forgets, gives, findSome?_cons, hany, hmem]
    | pass x plain =>
      cases plain <;> simp [apply, anyPass, forgets, gives, findSome?_cons, hany, hmem, @eq_comm _ hash]
    | _ => simp [apply, anyPass, forgets, gives, findSome?_cons, hany, hmem]

/-! ## Rejection -/

def isCategory : Rule → Bool
  | category .. => true
  | _ => false

/-- Any rule but one for a category changes some user, whatever came before it. -/
theorem exists_apply_ne {r : Rule} (hr : r.isCategory = false) : ∃ u, ∀ v, r.apply v ≠ u := by
  -- the new user, but for one field
  have hfield {α : Type} (f : User → α) (u : User) (h : ∀ v, f (r.apply v) ≠ f u) : ∃ u, ∀ v, r.apply v ≠ u :=
    ⟨u, fun v hv => h v (congrArg f hv)⟩
  cases r with
  | flag on => exact hfield enabled { name := [], enabled := !on } (by simp [apply])
  | nopass => exact hfield noPass { name := [] } (by simp [apply])
  | resetpass => exact hfield noPass { name := [], noPass := true } (by simp [apply])
  | pass x plain => exact hfield passHashes { name := [] } (by simp [apply])
  | allkeys => exact hfield allKeys { name := [] } (by simp [apply])
  | keys p => exact hfield keyPats { name := [] } (by simp [apply])
  | allchannels => exact hfield allChans { name := [] } (by simp [apply])
  | channel p => exact hfield chanPats { name := [] } (by simp [apply])
  | all allow => exact hfield allCmds { name := [], allCmds := !allow } (by cases allow <;> simp [apply])
  | category => cases hr
  | command n allow =>
    exact hfield (·.cmdAllow.lookup n) { name := [] } (by simp [apply, Engine.lookup_putField])
  | reset => exact hfield enabled { name := [], enabled := true } (by simp [apply])

theorem foldl_apply_eq_iff (rules : List Rule) :
    (∀ u, rules.foldl apply u = u) ↔ ∀ r ∈ rules, r.isCategory = true := by
  induction rules using reverseRecOn with
  | nil => simp
  | append_singleton rules r ih =>
    simp only [foldl_append, foldl_cons, foldl_nil, mem_append, mem_singleton]
    cases hr : r.isCategory with
    | true =>
      have hid : ∀ u, apply u r = u := by cases r <;> simp_all [isCategory, apply]
      simp only [hid, ih]
      exact ⟨fun h x hx => hx.elim (h x) (· ▸ hr), fun h x hx => h x (.inl hx)⟩
    | false =>
      obtain ⟨u, hu⟩ := exists_apply_ne hr
      exact ⟨fun h => absurd (h u) (hu _), fun h => absurd (h r (.inr rfl)) (by simp [hr])⟩

variable (lib)

/-- The rules of some calls of `SetUser` that were applied, the newest first. -/
def history (calls : List (List Bytes)) : List Rule := (calls.flatMap (accepted lib)).reverse

theorem foldl_applyRules (name : Bytes) (calls : List (List Bytes)) :
    calls.foldl (applyRules lib) { name } = made name (history lib calls) := by
  rw [made, history, foldr_reverse, foldl_flatMap]
  exact congrFun (congrFun (congrArg foldl (funext fun u => funext (applyRules_eq u))) _) _

theorem rules_exact (contains : Bytes → Bytes → Bool) : (∀ (calls : List (List Bytes)) (name c : Bytes),
      ((calls.foldl (applyRules lib) { name }).canRunCommand c = true ↔
        (history lib calls).findSome? (mention contains (toLower c)) = some true) ↔
      Agrees contains (toLower c) (since (history lib calls))) ∧ (∀ (calls : List (List Bytes)) (name pw : Bytes),
      (calls.foldl (applyRules lib) { name }).checkPassword lib pw = true ↔
        (history lib calls).findSome? anyPass = some true ∨
          ((history lib calls).takeWhile (!·.forgets)).any (gives (lib.sha256hex pw))) ∧
    (∀ rules : List Bytes, (∃ r ∈ rules, parse lib r = none) →
      ((∀ u : User, u.applyRules lib rules = u) ↔ ∀ r ∈ accepted lib rules, r.isCategory = true)) ∧
    ∀ (w : World) (name : Bytes) (rules : List Bytes), w.users.lookup name = none →
      (w.setUser lib name rules).users.lookup name ≠ none := by
  refine ⟨fun calls name c => ?_, fun calls name pw => ?_, fun rules _ => ?_, fun w name rules h => ?_⟩
  · rw [foldl_applyRules]
    exact canRunCommand_iff contains c _ name
  · obtain ⟨hany, hmem⟩ := passwords_foldr (lib.sha256hex pw) (history lib calls) name
    rw [foldl_applyRules, checkPassword, Bool.or_eq_true, decide_eq_true_eq, hany, hmem]
  · simp only [applyRules_eq]
    exact foldl_apply_eq_iff _
  · simp [World.setUser, h]

theorem rules_exact_get :
    ((([["+get"]] : List (List Bytes)).foldl (applyRules World.literal) { name := [] }).canRunCommand "get" ↔
      (history World.literal [["+get"]]).findSome? (mention (fun _ _ => false) (toLower "get")) = some true) ∧
    (∀ u : User, u.applyRules World.literal ["+@read", "?"] = u) ∧
    ((World.start []).setUser World.literal (str "bob") []).users.lookup (str "bob") ≠ none :=
  have hexact := rules_exact World.literal fun _ _ => false
  ⟨(hexact.1 _ _ _).2 rfl,
    (hexact.2.2.1 _ ⟨"?", .tail _ (.head _), by decide⟩).2 fun _ hr => mem_singleton.1 hr ▸ rfl,
    hexact.2.2.2 _ _ _ (by decide)⟩

/-- A rule by name is older than the rule that allows all. -/
theorem rules_not_in_order : ¬∀ (lib : Lib) (contains : Bytes → Bytes → Bool) (calls : List (List Bytes)) (name c : Bytes),
    (calls.foldl (applyRules lib) { name }).canRunCommand c = true ↔
      (history lib calls).findSome? (mention contains (toLower c)) = some true := by
  intro h
  have hget := (h World.literal (fun _ _ => false) [["-get", "+@all"]] [] "get").2 (by decide)
  exact absurd hget (by decide)

end Rule

end Hayakv.Acl
