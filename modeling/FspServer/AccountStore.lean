import FspServer.Frame
import FspServer.Transitions
import FspServer.Lib.Lookup
import FspServer.Lib.Simulation

/-!
# The account store

The server takes the store of its accounts to be a map from nicknames to passwords on which
each call is one step (`accountsStep`, `accounts_of_step`). `SQLiteDB` keeps the accounts in the
rows of a table, and a registration is two statements: a selection that looks for the nickname
and then an insertion. The worker threads make their calls at the same time, so a statement of
one thread may come between the two of another.

What the statements are given and the column that is fetched end at the first null character
(`cString`), and the password of a sign-in does not. The schema of the table is not in the
sources: `unique` says whether it refuses a second row with a nickname.

* `accounts_atomic`: when the table refuses such a row, or no insertion comes after another one
  of the same nickname that its selection has not seen, the calls return what they would return
  if each were one step on the map, and the rows are the map that is left. Without either, two
  registrations of a nickname both succeed (`both_registered`).
* `null_password_refused`: a password with a null character can be registered and is never
  accepted.
-/

namespace FspServer

open Runs

/-! ## Accounts -/

/-- `IUsersDB::status_code`. -/
inductive StatusCode where
  | user_credentials_ok
  | user_not_found
  | user_pswd_incorrect
  | registered_succes
  | user_already_registered
  | user_removed
  | user_failed_to_remove
  | internal_error
deriving DecidableEq, Repr

/-- `IUsersDB::user`. -/
structure User where
  nickname : Str
  password : Str
deriving DecidableEq, Repr

/-- A call of `IUsersDB`. -/
inductive AccountCall where
  | retrieveUser (user : User)
  | registerUser (user : User)
  | eraseUser (user : User)
deriving DecidableEq, Repr

/-- A call as one step on the passwords by nickname; with `true` the database cannot be used. -/
def accountsStep (m : Str → Option Str) :
    AccountCall × Bool → Option ((Str → Option Str) × StatusCode)
  | (_, true) => some (m, .internal_error)
  | (.retrieveUser user, false) =>
    match m user.nickname with
    | none => some (m, .user_not_found)
    | some password =>
      some (m, if user.password = password then .user_credentials_ok else .user_pswd_incorrect)
  | (.registerUser user, false) =>
    if (m user.nickname).isSome then some (m, .user_already_registered)
    else some (Function.update m user.nickname (some user.password), .registered_succes)
  | (.eraseUser user, false) =>
    if (m user.nickname).isSome then some (Function.update m user.nickname none, .user_removed)
    else some (m, .user_failed_to_remove)

/-! ## The table -/

/-- The database, with the threads that may use it. -/
structure SQLiteDB (ι : Type) where
  /-- The rows of `Clients`: nickname and password. -/
  rows : List (Str × Str)
  /-- The threads whose `register_user` has found no row and will insert one. -/
  inserting : ι → Option User

namespace SQLiteDB

variable {ι : Type}

def initial (rows : List (Str × Str)) : SQLiteDB ι := ⟨rows, fun _ => none⟩

/-- The first row that the selection fetches. -/
def select (nickname : Str) (db : SQLiteDB ι) : Option (Str × Str) :=
  db.rows.find? fun row => row.1 = cString nickname

/-- `retrieve_user`. -/
def retrieveUser (user : User) (fails : Bool) (db : SQLiteDB ι) : StatusCode :=
  if fails then .internal_error
  else match db.select user.nickname with
    | none => .user_not_found
    | some row =>
      if user.password = cString row.2 then .user_credentials_ok else .user_pswd_incorrect

/-- `register_user` up to the insertion; `none` when it goes on. -/
def registerUser (user : User) (fails : Bool) (db : SQLiteDB ι) : Option StatusCode :=
  if fails then some .internal_error
  else if (db.select user.nickname).isSome then some .user_already_registered
  else none

/-- The insertion of `register_user`. -/
def insert (unique : Bool) (user : User) (fails : Bool) (db : SQLiteDB ι) :
    SQLiteDB ι × StatusCode :=
  if fails ∨ unique ∧ (db.select user.nickname).isSome then (db, .internal_error)
  else
    ({ db with rows := db.rows ++ [(cString user.nickname, cString user.password)] },
      .registered_succes)

/-- `erase_user`. -/
def eraseUser (user : User) (fails : Bool) (db : SQLiteDB ι) : SQLiteDB ι × StatusCode :=
  if fails then (db, .internal_error)
  else if (db.select user.nickname).isSome then
    ({ db with rows := db.rows.filter fun row => row.1 ≠ cString user.nickname }, .user_removed)
  else (db, .user_failed_to_remove)

/-- A statement of a thread; with `fails` it throws or is not executed. -/
inductive Event (ι : Type) where
  | retrieveUser (i : ι) (user : User) (fails : Bool)
  | registerUser (i : ι) (user : User) (fails : Bool)
  | insert (i : ι) (fails : Bool)
  | eraseUser (i : ι) (user : User) (fails : Bool)

variable [DecidableEq ι]

def setInserting (i : ι) (user : Option User) (db : SQLiteDB ι) : SQLiteDB ι :=
  { db with inserting := Function.update db.inserting i user }

/-- A statement is executed. When a call ends with it, the step puts out the call, whether it
failed, and what it returns. -/
def step (unique : Bool) (db : SQLiteDB ι) :
    Event ι → Option (SQLiteDB ι × Option ((AccountCall × Bool) × StatusCode))
  | .retrieveUser i user fails =>
    if (db.inserting i).isSome then none
    else some (db, some ((.retrieveUser user, fails), db.retrieveUser user fails))
  | .registerUser i user fails =>
    if (db.inserting i).isSome then none
    else match db.registerUser user fails with
      | some status => some (db, some ((.registerUser user, fails), status))
      | none => some (db.setInserting i (some user), none)
  | .insert i fails =>
    (db.inserting i).map fun user =>
      let r := (db.setInserting i none).insert unique user fails
      (r.1, some ((.registerUser user, r.2 = .internal_error), r.2))
  | .eraseUser i user fails =>
    if (db.inserting i).isSome then none
    else
      let r := db.eraseUser user fails
      some (r.1, some ((.eraseUser user, fails), r.2))

end SQLiteDB

/-- The call with what its statements are given. -/
def AccountCall.bound : AccountCall → AccountCall
  | .retrieveUser user => .retrieveUser { user with nickname := cString user.nickname }
  | .registerUser user => .registerUser ⟨cString user.nickname, cString user.password⟩
  | .eraseUser user => .eraseUser { user with nickname := cString user.nickname }

/-- A call as one step, on what its statements are given. -/
def boundStep (m : Str → Option Str) (call : AccountCall × Bool) :
    Option ((Str → Option Str) × StatusCode) :=
  accountsStep m (call.1.bound, call.2)

/-! ## Statements -/

namespace SQLiteDB

variable {ι : Type}

/-- The passwords by nickname, as they are fetched. -/
def accounts (db : SQLiteDB ι) : Str → Option Str := fun nickname =>
  (db.rows.lookup nickname).map cString

theorem map_select (nickname : Str) (db : SQLiteDB ι) :
    (db.select nickname).map (fun row => cString row.2) = db.accounts (cString nickname) := by
  rw [accounts, ← Lookup.map_find?_key, Option.map_map]
  rfl

theorem isSome_select (nickname : Str) (db : SQLiteDB ι) :
    (db.select nickname).isSome = (db.accounts (cString nickname)).isSome := by
  rw [← map_select, Option.isSome_map]

theorem boundStep_retrieveUser (user : User) (fails : Bool) (db : SQLiteDB ι) :
    boundStep db.accounts (.retrieveUser user, fails) =
      some (db.accounts, db.retrieveUser user fails) := by
  cases fails with
  | true => rfl
  | false =>
    simp only [boundStep, AccountCall.bound, accountsStep, retrieveUser, ← map_select]
    cases db.select user.nickname <;> rfl

theorem boundStep_registerUser {user : User} {fails : Bool} {db : SQLiteDB ι}
    {status : StatusCode} (h : db.registerUser user fails = some status) :
    boundStep db.accounts (.registerUser user, fails) = some (db.accounts, status) := by
  unfold registerUser at h
  cases fails with
  | true => exact Option.some.inj h ▸ rfl
  | false =>
    obtain ⟨hsome, hstatus⟩ := Option.ite_none_right_eq_some.mp h
    obtain rfl := Option.some.inj hstatus
    rw [isSome_select] at hsome
    exact if_pos hsome

/-- An insertion is refused, or adds a row that the table does not refuse. -/
theorem insert_cases (unique : Bool) (user : User) (fails : Bool) (db : SQLiteDB ι) :
    db.insert unique user fails = (db, .internal_error) ∨
      fails = false ∧ (unique = true → db.select user.nickname = none) ∧
        db.insert unique user fails =
          ({ db with rows := db.rows ++ [(cString user.nickname, cString user.password)] },
            .registered_succes) := by
  unfold insert
  split
  · exact .inl rfl
  · next hinserts =>
    obtain ⟨hexecuted, hnot⟩ := not_or.mp hinserts
    refine .inr ⟨Bool.eq_false_iff.mpr hexecuted, fun hunique => ?_, rfl⟩
    exact Option.not_isSome_iff_eq_none.mp fun hsome => hnot ⟨hunique, hsome⟩

theorem boundStep_insert {unique : Bool} {user : User} {fails : Bool} {db : SQLiteDB ι}
    (hfresh : fails = false → unique = true ∨ db.select user.nickname = none) :
    boundStep db.accounts (.registerUser user,
        (db.insert unique user fails).2 = .internal_error) =
      some ((db.insert unique user fails).1.accounts, (db.insert unique user fails).2) := by
  rcases insert_cases unique user fails db with hrefused | ⟨hexecuted, hunique, hadded⟩
  · rw [hrefused]
    rfl
  · have hfree : db.accounts (cString user.nickname) = none := by
      rw [← map_select, (hfresh hexecuted).elim hunique id, Option.map_none]
    have hlookup : db.rows.lookup (cString user.nickname) = none := Option.map_eq_none_iff.mp hfree
    have hupdate : accounts { db with
        rows := db.rows ++ [(cString user.nickname, cString user.password)] } =
          Function.update db.accounts (cString user.nickname) (some (cString user.password)) := by
      have hrows := funext (Lookup.lookup_concat _ hlookup (cString user.password))
      refine (congrArg (Option.map cString ∘ ·) hrows).trans ?_
      rw [Function.comp_update, Option.map_some, cString_cString]
      rfl
    rw [hadded]
    simp only [boundStep, AccountCall.bound, reduceCtorEq, decide_false, accountsStep, hfree,
      Option.isSome_none, Bool.false_eq_true, if_false]
    exact congrArg (fun m => some (m, StatusCode.registered_succes)) hupdate.symm

theorem boundStep_eraseUser (user : User) (fails : Bool) (db : SQLiteDB ι) :
    boundStep db.accounts (.eraseUser user, fails) =
      some ((db.eraseUser user fails).1.accounts, (db.eraseUser user fails).2) := by
  cases fails with
  | true => rfl
  | false =>
    have hupdate : accounts { db with
        rows := db.rows.filter fun row => row.1 ≠ cString user.nickname } =
          Function.update db.accounts (cString user.nickname) none := by
      have hrows := funext (Lookup.lookup_filter_key (cString user.nickname) db.rows)
      exact (congrArg (Option.map cString ∘ ·) hrows).trans (Function.comp_update ..)
    simp only [boundStep, AccountCall.bound, accountsStep, eraseUser, isSome_select,
      Bool.false_eq_true, if_false]
    split
    · exact congrArg (fun m => some (m, StatusCode.user_removed)) hupdate.symm
    · rfl

/-! ## Whole runs -/

/-- The table refuses a second row with a nickname, or the insertion finds none. -/
def InsertsFresh (unique : Bool) (db : SQLiteDB ι) : Event ι → Prop
  | .insert i false =>
    unique = true ∨ ∀ user ∈ db.inserting i, db.select user.nickname = none
  | _ => True

instance (unique : Bool) (db : SQLiteDB ι) (e : Event ι) : Decidable (InsertsFresh unique db e) :=
  match e with
  | .insert i false => inferInstanceAs (Decidable (_ ∨ ∀ user ∈ db.inserting i, _ = none))
  | .insert _ true | .retrieveUser .. | .registerUser .. | .eraseUser .. =>
    inferInstanceAs (Decidable True)

variable [DecidableEq ι]

/-- The last statement of a call does what the call does as one step. -/
theorem commits_step {unique : Bool} {db db' : SQLiteDB ι} {m : Str → Option Str} {e : Event ι}
    {o : Option ((AccountCall × Bool) × StatusCode)} (hm : m = db.accounts)
    (hfresh : InsertsFresh unique db e) (h : db.step unique e = some (db', o)) :
    Commits (fun (db : SQLiteDB ι) m => m = db.accounts) boundStep db' m o := by
  subst hm
  cases e with
  | retrieveUser i user fails =>
    obtain ⟨-, hstep⟩ := Option.ite_none_left_eq_some.mp h
    obtain ⟨rfl, rfl⟩ := Prod.mk.inj (Option.some.inj hstep)
    exact .commit (boundStep_retrieveUser user fails db) rfl
  | registerUser i user fails =>
    obtain ⟨-, hstep⟩ := Option.ite_none_left_eq_some.mp h
    split at hstep
    · next status hstatus =>
      obtain ⟨rfl, rfl⟩ := Prod.mk.inj (Option.some.inj hstep)
      exact .commit (boundStep_registerUser hstatus) rfl
    · obtain ⟨rfl, rfl⟩ := Prod.mk.inj (Option.some.inj hstep)
      exact .silent rfl
  | insert i fails =>
    obtain ⟨user, huser, hstep⟩ := Option.map_eq_some_iff.mp h
    obtain ⟨rfl, rfl⟩ := Prod.mk.inj hstep
    have hnone : fails = false →
        unique = true ∨ (db.setInserting i none).select user.nickname = none := by
      rintro rfl
      exact hfresh.imp_right fun hnone => hnone user huser
    exact .commit (boundStep_insert hnone) rfl
  | eraseUser i user fails =>
    obtain ⟨-, hstep⟩ := Option.ite_none_left_eq_some.mp h
    obtain ⟨rfl, rfl⟩ := Prod.mk.inj (Option.some.inj hstep)
    exact .commit (boundStep_eraseUser user fails db) rfl

/-- A statement adds a row with what it is given, or no row at all. -/
theorem rows_step {unique : Bool} {db db' : SQLiteDB ι} {e : Event ι}
    {o : Option ((AccountCall × Bool) × StatusCode)} (h : db.step unique e = some (db', o)) :
    db'.rows.Sublist db.rows ∨
      ∃ user : User, db'.rows = db.rows ++ [(cString user.nickname, cString user.password)] ∧
        (InsertsFresh unique db e → db.accounts (cString user.nickname) = none) := by
  cases e with
  | retrieveUser i user fails =>
    obtain ⟨-, hstep⟩ := Option.ite_none_left_eq_some.mp h
    obtain ⟨rfl, -⟩ := Prod.mk.inj (Option.some.inj hstep)
    exact .inl (.refl _)
  | registerUser i user fails =>
    obtain ⟨-, hstep⟩ := Option.ite_none_left_eq_some.mp h
    split at hstep
    all_goals
      obtain ⟨rfl, -⟩ := Prod.mk.inj (Option.some.inj hstep)
      exact .inl (.refl _)
  | insert i fails =>
    obtain ⟨user, huser, hstep⟩ := Option.map_eq_some_iff.mp h
    obtain ⟨rfl, -⟩ := Prod.mk.inj hstep
    rcases insert_cases unique user fails (db.setInserting i none) with
      hrefused | ⟨rfl, hunique, hadded⟩
    · exact .inl (by rw [hrefused]; exact .refl _)
    · refine .inr ⟨user, by rw [hadded]; rfl, fun hfresh => ?_⟩
      have hnone : db.select user.nickname = none := hfresh.elim hunique fun hnone =>
        hnone user huser
      rw [← map_select, hnone, Option.map_none]
  | eraseUser i user fails =>
    obtain ⟨-, hstep⟩ := Option.ite_none_left_eq_some.mp h
    obtain ⟨rfl, -⟩ := Prod.mk.inj (Option.some.inj hstep)
    unfold eraseUser
    split
    · exact .inl (.refl _)
    · split
      · exact .inl List.filter_sublist
      · exact .inl (.refl _)

/-- A table without two rows of a nickname stays one. -/
theorem nodup_step {unique : Bool} {db db' : SQLiteDB ι} {e : Event ι}
    {o : Option ((AccountCall × Bool) × StatusCode)} (hfresh : InsertsFresh unique db e)
    (h : db.step unique e = some (db', o)) (hnodup : (db.rows.map Prod.fst).Nodup) :
    (db'.rows.map Prod.fst).Nodup := by
  rcases rows_step h with hsublist | ⟨user, hrows, hfree⟩
  · exact hnodup.sublist (hsublist.map _)
  · have hnew : cString user.nickname ∉ db.rows.map Prod.fst := by
      intro hmem
      obtain ⟨old, hold, heq⟩ := List.mem_map.mp hmem
      have hnone := Option.map_eq_none_iff.mp (hfree hfresh)
      have hne := List.lookup_eq_none_iff.mp hnone old hold
      simp [heq] at hne
    rw [hrows, List.map_append, List.nodup_append]
    refine ⟨hnodup, List.pairwise_singleton _ _, fun name hname name' hname' heq => ?_⟩
    obtain rfl := List.mem_singleton.mp hname'
    obtain rfl : name = cString user.nickname := heq
    exact hnew hname

end SQLiteDB

/-- In every run of the statements of any threads, when the table refuses a second row with a
nickname or each insertion finds none: the calls return what they return as single steps on the
passwords by nickname, made in the order in which they ended, and the rows are the passwords
that are left. No nickname has two rows, if none had at the start. -/
theorem accounts_atomic {ι : Type} [DecidableEq ι] {unique : Bool} {rows : List (Str × Str)}
    {es : List (SQLiteDB.Event ι)} {db : SQLiteDB ι}
    {os : List (Option ((AccountCall × Bool) × StatusCode))}
    (h : outputs (SQLiteDB.step unique) (SQLiteDB.initial rows) es = some (db, os))
    (hfresh : EachStep (states (SQLiteDB.step unique)) (SQLiteDB.InsertsFresh unique)
      (SQLiteDB.initial rows) es) :
    outputs boundStep (SQLiteDB.initial rows : SQLiteDB ι).accounts
        (os.reduceOption.map Prod.fst) = some (db.accounts, os.reduceOption.map Prod.snd) ∧
      ((rows.map Prod.fst).Nodup → (db.rows.map Prod.fst).Nodup) := by
  let related (db : SQLiteDB ι) (m : Str → Option Str) : Prop :=
    m = db.accounts ∧ ((rows.map Prod.fst).Nodup → (db.rows.map Prod.fst).Nodup)
  have hstep : ∀ (db : SQLiteDB ι) m e db' o, related db m →
      SQLiteDB.InsertsFresh unique db e → db.step unique e = some (db', o) →
      Commits related boundStep db' m o := by
    intro db m e db' o hm hfresh hstep
    have hnodup := fun hunique => SQLiteDB.nodup_step hfresh hstep (hm.2 hunique)
    cases SQLiteDB.commits_step hm.1 hfresh hstep with
    | silent hsame => exact .silent ⟨hsame, hnodup⟩
    | commit hcall hsame => exact .commit hcall ⟨hsame, hnodup⟩
  obtain ⟨m, hrun, rfl, hnodup⟩ := outputs_of_commits hstep ⟨rfl, id⟩ hfresh h
  exact ⟨hrun, hnodup⟩

/-- Two threads register a nickname: each selection comes before both insertions. -/
def bothRegister : List (SQLiteDB.Event Nat) :=
  [.registerUser 0 ⟨['a'], ['x']⟩ false, .registerUser 1 ⟨['a'], ['y']⟩ false, .insert 0 false,
    .insert 1 false]

/-- The table refuses the second row. -/
theorem accounts_atomic_both_register :
    ∃ (db : SQLiteDB Nat) (os : List (Option ((AccountCall × Bool) × StatusCode))),
      outputs (SQLiteDB.step true) (SQLiteDB.initial []) bothRegister = some (db, os) ∧
      os.reduceOption.map Prod.snd = [.registered_succes, .internal_error] ∧
      outputs boundStep (SQLiteDB.initial [] : SQLiteDB Nat).accounts
        (os.reduceOption.map Prod.fst) = some (db.accounts, os.reduceOption.map Prod.snd) := by
  have hrun : ((outputs (SQLiteDB.step true) (SQLiteDB.initial []) bothRegister).any fun r =>
      decide (r.2.reduceOption.map Prod.snd = [.registered_succes, .internal_error])) = true := by
    decide
  obtain ⟨⟨db, os⟩, hs, hstatuses⟩ := (Option.any_eq_true _ _).mp hrun
  exact ⟨db, os, hs, of_decide_eq_true hstatuses, (accounts_atomic hs (by decide)).1⟩

/-- A table that does not refuse it has two rows then, and both threads are told that they are
registered. -/
theorem both_registered :
    ((outputs (SQLiteDB.step false) (SQLiteDB.initial []) bothRegister).map fun r =>
      (r.1.rows, r.2.reduceOption.map Prod.snd)) =
        some ([(['a'], ['x']), (['a'], ['y'])], [.registered_succes, .registered_succes]) := by
  decide

/-! ## Null characters -/

theorem null_not_mem_cString (text : Str) : Char.ofNat 0 ∉ cString text := fun h => by
  simpa using List.mem_takeWhile_imp h

namespace SQLiteDB

variable {ι : Type} [DecidableEq ι]

/-- A sign-in is answered by its only statement. -/
theorem status_of_retrieveUser {unique : Bool} {db db' : SQLiteDB ι} {e : Event ι} {user : User}
    {fails : Bool} {status : StatusCode}
    (h : db.step unique e = some (db', some ((.retrieveUser user, fails), status))) :
    status = db.retrieveUser user fails := by
  cases e with
  | retrieveUser i user' fails' =>
    obtain ⟨-, hstep⟩ := Option.ite_none_left_eq_some.mp h
    simp only [Option.some.injEq, Prod.mk.injEq, AccountCall.retrieveUser.injEq] at hstep
    obtain ⟨-, ⟨rfl, rfl⟩, rfl⟩ := hstep
    rfl
  | registerUser i user' fails' =>
    obtain ⟨-, hstep⟩ := Option.ite_none_left_eq_some.mp h
    split at hstep <;> simp at hstep
  | insert i fails' =>
    obtain ⟨user', -, hstep⟩ := Option.map_eq_some_iff.mp h
    simp at hstep
  | eraseUser i user' fails' =>
    obtain ⟨-, hstep⟩ := Option.ite_none_left_eq_some.mp h
    simp at hstep

omit [DecidableEq ι] in
/-- The column that is fetched has no null character. -/
theorem retrieveUser_ne_of_null (db : SQLiteDB ι) {user : User} (fails : Bool)
    (hnull : Char.ofNat 0 ∈ user.password) :
    db.retrieveUser user fails ≠ .user_credentials_ok := by
  unfold SQLiteDB.retrieveUser
  split
  · exact nofun
  · split
    · exact nofun
    · next row hrow =>
      have hne : user.password ≠ cString row.2 := fun heq =>
        null_not_mem_cString row.2 (heq ▸ hnull)
      rw [if_neg hne]
      exact nofun

omit [DecidableEq ι] in
/-- The column that was inserted signs in. -/
theorem retrieveUser_insert (db : SQLiteDB ι) (unique : Bool) {user : User}
    (hselect : db.select user.nickname = none) :
    (db.insert unique user false).1.retrieveUser ⟨user.nickname, cString user.password⟩ false =
      .user_credentials_ok := by
  have hfind : (db.insert unique user false).1.select user.nickname =
      some (cString user.nickname, cString user.password) := by
    simp only [insert, hselect, Option.isSome_none, Bool.false_eq_true, and_false, or_self,
      if_false]
    simp only [select, List.find?_append]
    rw [show db.rows.find? _ = none from hselect]
    simp
  simp [retrieveUser, hfind, cString_cString]

end SQLiteDB

/-- In every run, with whatever table: a sign-in with a password that contains a null character
is never accepted, not even after a registration with this password has succeeded. What is before
the null character signs in then. -/
theorem null_password_refused {ι : Type} [DecidableEq ι] {unique : Bool}
    {rows : List (Str × Str)} {es : List (SQLiteDB.Event ι)} {db : SQLiteDB ι}
    {os : List (Option ((AccountCall × Bool) × StatusCode))}
    (h : outputs (SQLiteDB.step unique) (SQLiteDB.initial rows) es = some (db, os)) :
    (∀ user fails status, some ((.retrieveUser user, fails), status) ∈ os →
      Char.ofNat 0 ∈ user.password → status ≠ .user_credentials_ok) ∧
    ∀ user, db.select user.nickname = none →
      (db.insert unique user false).1.retrieveUser ⟨user.nickname, cString user.password⟩ false =
        .user_credentials_ok := by
  refine ⟨?_, fun user hselect => db.retrieveUser_insert unique hselect⟩
  refine invariant_of_outputs (I := fun _ _ os =>
    ∀ user fails status, some ((AccountCall.retrieveUser user, fails), status) ∈ os →
      Char.ofNat 0 ∈ user.password → status ≠ .user_credentials_ok)
    (fun db es os e db' o hold hstep user fails status hmem hnull => ?_)
    (fun _ _ _ hmem => absurd hmem List.not_mem_nil) h
  rcases List.mem_append.mp hmem with hbefore | hnew
  · exact hold user fails status hbefore hnull
  · obtain rfl := List.mem_singleton.mp hnew
    exact SQLiteDB.status_of_retrieveUser hstep ▸ db.retrieveUser_ne_of_null fails hnull

/-- A user registers with such a password and is told that it is wrong when it signs in. -/
theorem null_password_refused_after_registration :
    ∃ (db : SQLiteDB Nat) (os : List (Option ((AccountCall × Bool) × StatusCode)))
        (user : User) (status : StatusCode),
      outputs (SQLiteDB.step true) (SQLiteDB.initial [])
        [.registerUser 0 user false, .insert 0 false, .retrieveUser 0 user false] =
          some (db, os) ∧
      os = [none, some ((.registerUser user, false), .registered_succes),
        some ((.retrieveUser user, false), status)] ∧
      status = .user_pswd_incorrect ∧ status ≠ .user_credentials_ok := by
  have hrun : ((outputs (SQLiteDB.step true) (SQLiteDB.initial [] : SQLiteDB Nat)
      [.registerUser 0 ⟨['a'], ['x', Char.ofNat 0]⟩ false, .insert 0 false,
        .retrieveUser 0 ⟨['a'], ['x', Char.ofNat 0]⟩ false]).any fun r => decide (r.2 =
      [none, some ((.registerUser ⟨['a'], ['x', Char.ofNat 0]⟩, false), .registered_succes),
        some ((.retrieveUser ⟨['a'], ['x', Char.ofNat 0]⟩, false), .user_pswd_incorrect)])) =
          true := by
    decide
  obtain ⟨⟨db, os⟩, hs, hstatuses⟩ := (Option.any_eq_true _ _).mp hrun
  obtain rfl := of_decide_eq_true hstatuses
  exact ⟨db, _, _, _, hs, rfl, rfl, (null_password_refused hs).1 _ _ _
    (List.mem_cons_of_mem _ (List.mem_cons_of_mem _ List.mem_cons_self)) (by decide)⟩

/-! ## The accounts of the server -/

/-- The call that a worker makes for a request of a client with the nickname. -/
def Request.accountCall (nickname : Str) : Request → Option AccountCall
  | .signin _ login password => some (.retrieveUser ⟨login, password⟩)
  | .signup _ login password => some (.registerUser ⟨login, password⟩)
  | .deleteAccount _ => some (.eraseUser ⟨nickname, []⟩)
  | _ => none

def RetrieveStatus.status : RetrieveStatus → StatusCode
  | .user_credentials_ok => .user_credentials_ok
  | .user_not_found => .user_not_found
  | .user_pswd_incorrect => .user_pswd_incorrect
  | .internal_error => .internal_error

namespace Server

/-- The passwords by nickname. -/
def accounts (s : Server) : Str → Option Str := fun nickname => s.users.lookup nickname

/-- The call of the account store that an event makes, and whether it fails. -/
def accountCall (s : Server) : Event → Option (AccountCall × Bool)
  | .execute i dbFails _ =>
    (s.tasks[i]?).bind fun t =>
      if s.alive t.conn then
        (t.request.accountCall (s.registry.nickname t.conn)).map fun call => (call, dbFails)
      else none
  | _ => none

theorem blind_users : Blind fun s => s.users where
  startWrite _ _ _ _ := rfl
  downloads _ _ _ := rfl
  setCached _ _ _ _ _ := rfl

theorem deaf_users : Deaf fun s => s.users where
  notification _ _ _ := rfl
  registry _ _ := rfl
  closing _ _ _ _ := rfl

theorem any_users (nickname : Str) (s : Server) :
    (s.users.any fun u => u.1 = nickname) = (s.accounts nickname).isSome := by
  rw [Bool.eq_iff_iff, accounts, List.lookup_isSome_iff, List.any_eq_true]
  simp only [decide_eq_true_eq, beq_iff_eq]
  exact exists_congr fun u => and_congr_right fun _ => eq_comm

/-- `retrieveUser` returns what the call returns as one step. -/
theorem accountsStep_retrieveUser (dbFails : Bool) (login password : Str) (s : Server) :
    accountsStep s.accounts (.retrieveUser ⟨login, password⟩, dbFails) =
      some (s.accounts, (retrieveUser s.users dbFails login password).status) := by
  cases dbFails with
  | true => rfl
  | false =>
    have hrow : (s.users.find? fun u => u.1 = login).map Prod.snd = s.accounts login :=
      Lookup.map_find?_key ..
    simp only [accountsStep, retrieveUser, ← hrow]
    cases s.users.find? fun u => u.1 = login with
    | none => rfl
    | some u =>
      rcases eq_or_ne u.2 password with heq | hne
      · simp [heq, RetrieveStatus.status]
      · simp [hne, hne.symm, RetrieveStatus.status]

/-- A worker makes the call as one step on the accounts. -/
theorem accounts_executeRequest {cfg : Config} {dbFails : Bool} {env : FileEnv} {c : ConnId}
    {s s' : Server} {request : Request} {call : AccountCall}
    (hcall : request.accountCall (s.registry.nickname c) = some call)
    (h : s.executeRequest cfg dbFails env c request = some s') :
    ∃ status, accountsStep s.accounts (call, dbFails) = some (s'.accounts, status) := by
  cases request with
  | signin id login password =>
    obtain rfl := Option.some.inj hcall
    obtain rfl := Option.some.inj h
    have husers : (s.doSignin dbFails id login password c).accounts = s.accounts := by
      unfold doSignin
      split <;> rfl
    rw [husers]
    exact ⟨_, accountsStep_retrieveUser dbFails login password s⟩
  | signup id login password =>
    obtain rfl := Option.some.inj hcall
    obtain rfl := Option.some.inj h
    cases dbFails with
    | true => exact ⟨_, rfl⟩
    | false =>
      simp only [doSignup, Bool.false_eq_true, if_false, any_users, accountsStep]
      split
      · exact ⟨_, rfl⟩
      · exact ⟨_, congrArg (fun m => some (m, StatusCode.registered_succes))
          (funext (Lookup.lookup_cons_eq_update login s.users password)).symm⟩
  | deleteAccount id =>
    obtain rfl := Option.some.inj hcall
    obtain rfl := Option.some.inj h
    cases dbFails with
    | true => exact ⟨_, rfl⟩
    | false =>
      simp only [doDeleteAccount, Bool.false_eq_true, if_false, any_users, accountsStep]
      split
      · exact ⟨_, congrArg (fun m => some (m, StatusCode.user_removed))
          (funext (Lookup.lookup_filter_key (s.registry.nickname c) s.users)).symm⟩
      · exact ⟨_, rfl⟩
  | _ => cases hcall

/-- A request that makes no call leaves the accounts alone. -/
theorem users_executed {cfg : Config} {dbFails : Bool} {env : FileEnv} {c : ConnId}
    {s s' : Server} {request : Request}
    (hcall : request.accountCall (s.registry.nickname c) = none)
    (h : Executed cfg dbFails env c s request s') : s'.users = s.users := by
  cases h with
  | signup => cases hcall
  | deleteAccount => cases hcall
  | logout => exact deaf_users.stop c s
  | downloadFile => exact blind_users.resolveDownloadFileQuerry ..
  | _ => rfl

theorem users_resumeHandler (cfg : Config) (c : ConnId) (rest : Continuation) (s : Server) :
    (s.resumeHandler cfg c rest).users = s.users := by
  cases rest with
  | isLogged id login =>
    simp only [resumeHandler]
    split <;> rfl
  | storeLogin code id login => rfl
  | notifyFilesRegistration => exact deaf_users.notifyFilesRegistration ..
  | notifyFileAdd file => exact deaf_users.doNotify ..
  | notifyPathRemoved path => exact deaf_users.doNotify ..
  | notifyPathRenamed old new => exact deaf_users.doNotify ..
  | notifyDisconnection st nickname => exact deaf_users.notifyDisconnection ..

/-- The accounts of the server change by the calls of the store only, each as one step. -/
theorem accounts_of_step {cfg : Config} {s s' : Server} {e : Event} (h : s.step cfg e = some s') :
    match s.accountCall e with
    | none => s'.accounts = s.accounts
    | some call => ∃ status, accountsStep s.accounts call = some (s'.accounts, status) := by
  have same : s.accountCall e = none → s'.users = s.users →
      match s.accountCall e with
      | none => s'.accounts = s.accounts
      | some call => ∃ status, accountsStep s.accounts call = some (s'.accounts, status) :=
    fun hnone husers => by
      rw [hnone]
      exact congrArg (fun users nickname => users.lookup nickname) husers
  cases transition_of_step h with
  | @execute i dbFails env t s' ht halive hexecuted =>
    cases hcall : t.request.accountCall (s.registry.nickname t.conn) with
    | none =>
      refine same ?_ (users_executed (s := { s with tasks := s.tasks.eraseIdx i }) hcall hexecuted)
      simp [accountCall, ht, halive, hcall]
    | some call =>
      have hevent : s.accountCall (.execute i dbFails env) = some (call, dbFails) := by
        simp [accountCall, ht, halive, hcall]
      rw [hevent]
      obtain ⟨-, hexecute⟩ := Option.ite_none_left_eq_some.mp h
      obtain ⟨t', ht', hrest⟩ := Option.bind_eq_some_iff.mp hexecute
      obtain rfl := Option.some.inj (ht.symm.trans ht')
      obtain ⟨-, hrequest⟩ | ⟨hdead, -⟩ := ite_eq_iff.mp hrest
      · exact accounts_executeRequest (s := { s with tasks := s.tasks.eraseIdx i }) hcall hrequest
      · exact absurd halive hdead
  | expired ht hdead => exact same (by simp [accountCall, ht, hdead]) rfl
  | resume => exact same rfl (users_resumeHandler ..)
  | reply => exact same rfl (blind_users.resolveDownloadReply ..)
  | stop => exact same rfl (deaf_users.stop ..)
  | sharedWrite => exact same rfl (deaf_users.sharedWriteCompleted ..)
  | backupTimer => exact same rfl (blind_users.backupTimerExpired ..)
  | transactionTimer => exact same rfl (blind_users.transactionTimerExpired ..)
  | helloSender => exact same rfl (blind_users.tryStartDownloadTransaction ..)
  | transferCompleted => exact same rfl (blind_users.transferCompleted ..)
  | uploadCompleted => exact same rfl (blind_users.endUploadTransaction ..)
  | accept => exact same rfl rfl
  | heartbeat => exact same rfl rfl
  | refuse => exact same rfl rfl
  | post => exact same rfl rfl

end Server

end FspServer
