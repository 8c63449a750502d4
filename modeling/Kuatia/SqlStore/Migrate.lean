import Kuatia.Interleaving.Transactions
import Kuatia.Storage.Records
import Kuatia.Types.Text

/-! # Schema migrations

Every process that opens the store migrates it first. Each looks in the table of
applied migrations for the next one, and runs a missing one in a transaction that also
records it: the definition of tables is transactional, and locks what it changes, so
that a transaction happens at its commit or not at all. Between the look and the
transaction another process may have applied the migration.

The database engine is a parameter: what a statement makes of the contents, or why it
fails.
-/

namespace Kuatia.Migrate

open Interleaving

/-- The name of a migration and its SQL. -/
structure Migration where
  name : String
  sql : List Char
  deriving DecidableEq

/-- The statements of a migration: the parts between semicolons that are not blank. -/
def Migration.statements (migration : Migration) : List (List Char) :=
  ((migration.sql.splitOn ';').map trim).filter (· ≠ [])

/-- The migrations of the store, in the order in which they are applied. -/
def migrationNames : List String :=
  ["001_init", "002_subaccounts", "003_drop_user_data", "004_index_tables", "005_account_head",
    "006_drop_policy", "007_balance_projection", "008_live_postings", "009_saga_kind",
    "010_drop_sagas"]

variable {S : Type}

/-- The table of applied migrations, if it has been created, and all other contents. -/
structure Database (S : Type) where
  applied : Option (List String)
  contents : S

def Database.names (db : Database S) : List String := db.applied.getD []

/-- What comes next: the creation of the table, a look for a migration, its
transaction, or nothing. -/
inductive Phase where
  | create
  | check (migrations : List Migration)
  | apply (migration : Migration) (migrations : List Migration)
  | ended (result : Except StoreError Unit)
  deriving DecidableEq

variable (execute : List Char → S → Except StoreError S) (migrations : List Migration)

/-- All statements of a migration. -/
def Migration.run (migration : Migration) (contents : S) : Except StoreError S :=
  migration.statements.foldlM (fun contents statement => execute statement contents) contents

/-- What the database says when a name is recorded twice. -/
def uniqueViolation : StoreError := .internal "UNIQUE constraint failed: _migrations.name"

/-- The next step of a process, which may also fail. A transaction that fails changes
nothing. -/
def step (failure : Option String) (db : Database S) (_ : List Phase) :
    Phase → Option (Database S × Phase × Option Migration)
  | .ended _ => none
  | .create =>
      match failure with
      | some message => some (db, .ended (.error (.internal message)), none)
      | none => some ({ db with applied := some db.names }, .check migrations, none)
  | .check rest =>
      match failure with
      | some message => some (db, .ended (.error (.internal message)), none)
      | none =>
          match rest with
          | [] => some (db, .ended (.ok ()), none)
          | migration :: rest =>
              if migration.name ∈ db.names then some (db, .check rest, none)
              else some (db, .apply migration rest, none)
  | .apply migration rest =>
      match failure with
      | some message => some (db, .ended (.error (.internal message)), none)
      | none =>
          match migration.run execute db.contents with
          | .error err => some (db, .ended (.error err), none)
          | .ok contents =>
              if migration.name ∈ db.names then some (db, .ended (.error uniqueViolation), none)
              else some (⟨some (db.names ++ [migration.name]), contents⟩, .check rest,
                some migration)

/-- Any number of processes that migrate one database. -/
def system : TransactionSystem (Database S) Phase Unit (Option String) Migration :=
  ⟨fun _ => .create, step execute migrations⟩

abbrev Server (S : Type) := TransactionServer (Database S) Phase Migration

abbrev Action := TransactionAction Unit (Option String)

/-- A new database, which nothing has been applied to. -/
def Server.new (contents : S) : Server S := ⟨⟨none, contents⟩, [], []⟩

/-- What has happened to a new database after some actions. -/
def Server.after (contents : S) (actions : List Action) : Server S :=
  (Server.new contents).run (system execute migrations) actions

/-- The contents after some migrations one after the other. -/
def applyAll (done : List Migration) (contents : S) : Except StoreError S :=
  done.foldlM (fun contents migration => migration.run execute contents) contents

/-! ## In order, and once -/

section Theory

variable {execute migrations}

theorem applyAll_concat {done : List Migration} {migration : Migration} {start contents : S}
    (hdone : applyAll execute done start = .ok contents) :
    applyAll execute (done ++ [migration]) start = migration.run execute contents := by
  rw [applyAll] at hdone ⊢
  rw [List.foldlM_append, hdone]
  change (migration.run execute contents >>= pure) = _
  exact bind_pure _

/-- What a process knows of the migrations that have been applied. -/
def Follows (migrations log : List Migration) : Phase → Prop
  | .create | .ended (.error _) => True
  | .check rest => ∃ done, done ++ rest = migrations ∧ done <+: log
  | .apply migration rest => ∃ done, done ++ migration :: rest = migrations ∧ done <+: log
  | .ended (.ok _) => log = migrations

theorem Follows.later {log later : List Migration} {phase : Phase}
    (hfollows : Follows migrations log phase) (hlog : log <+: later)
    (hlater : later <+: migrations) : Follows migrations later phase := by
  cases phase with
  | create => trivial
  | check rest =>
      obtain ⟨done, hdone, hprefix⟩ := hfollows
      exact ⟨done, hdone, hprefix.trans hlog⟩
  | apply migration rest =>
      obtain ⟨done, hdone, hprefix⟩ := hfollows
      exact ⟨done, hdone, hprefix.trans hlog⟩
  | ended result =>
      cases result with
      | error => trivial
      | ok =>
          have hall : log = migrations := hfollows
          rw [hall] at hlog
          exact hlater.eq_of_length_le hlog.length_le

/-- The applied migrations are the first ones, and the contents are what they make of
those at the start. -/
structure InOrder (execute : List Char → S → Except StoreError S) (migrations : List Migration)
    (start : S) (log : List Migration) (db : Database S) : Prop where
  prefixed : log <+: migrations
  names : db.names = log.map (·.name)
  contents : applyAll execute log start = .ok db.contents

/-- After the migrations that a process has seen applied comes the next one, if any. -/
theorem applied_or_next {log done rest : List Migration} {migration : Migration}
    (hlog : log <+: done ++ migration :: rest) (hdone : done <+: log) :
    log = done ∨ done ++ [migration] <+: log := by
  obtain ⟨more, rfl⟩ := hdone
  rw [List.prefix_append_right_inj] at hlog
  cases more with
  | nil => exact .inl (List.append_nil _)
  | cons head more =>
      obtain ⟨rfl, -⟩ := List.cons_prefix_cons.mp hlog
      exact .inr ((List.prefix_append_right_inj _).mpr (by simp))

/-- A step that records nothing leaves what has been applied. -/
theorem InOrder.of_same {start : S} {log : List Migration} {db after : Database S}
    (hin : InOrder execute migrations start log db) (hnames : after.names = db.names)
    (hcontents : after.contents = db.contents) :
    InOrder execute migrations start (log ++ (none : Option Migration).toList) after := by
  rw [Option.toList_none, List.append_nil]
  exact ⟨hin.prefixed, hnames.trans hin.names, hcontents ▸ hin.contents⟩

/-- A migration is recorded after those that come before it, and on top of them. -/
theorem InOrder.record {start contents : S} {log rest : List Migration} {migration : Migration}
    {db : Database S} (hin : InOrder execute migrations start log db)
    (hrest : log ++ migration :: rest = migrations)
    (hrun : migration.run execute db.contents = .ok contents) :
    InOrder execute migrations start (log ++ [migration])
      ⟨some (db.names ++ [migration.name]), contents⟩ where
  prefixed := ⟨rest, by simpa using hrest⟩
  names := by
    rw [Database.names, Option.getD_some, hin.names, List.map_append]
    rfl
  contents := (applyAll_concat hin.contents).trans hrun

/-- A process that has seen all migrations applied but this one records it next. -/
theorem InOrder.eq_of_notMem {start : S} {log done rest : List Migration} {migration : Migration}
    {db : Database S} (hin : InOrder execute migrations start log db)
    (hrest : done ++ migration :: rest = migrations) (hdone : done <+: log)
    (hnew : migration.name ∉ db.names) : log = done := by
  have hprefixed := hin.prefixed
  rw [← hrest] at hprefixed
  refine (applied_or_next hprefixed hdone).resolve_right fun hseen => hnew ?_
  rw [hin.names]
  exact List.mem_map_of_mem (hseen.subset (by simp))

theorem InOrder.seen_of_mem {start : S} {log done rest : List Migration} {migration : Migration}
    {db : Database S} (hin : InOrder execute migrations start log db)
    (hnodup : (migrations.map (·.name)).Nodup) (hrest : done ++ migration :: rest = migrations)
    (hdone : done <+: log) (hold : migration.name ∈ db.names) : done ++ [migration] <+: log := by
  have hprefixed := hin.prefixed
  rw [← hrest] at hprefixed
  refine (applied_or_next hprefixed hdone).resolve_left fun hlog => ?_
  rw [hin.names, hlog] at hold
  rw [← hrest, List.map_append, List.nodup_append] at hnodup
  exact hnodup.2.2 _ hold _ (by simp) rfl

/-- One step of one process. -/
theorem InOrder.step {start : S} {log : List Migration} {db db' : Database S}
    {phase next : Phase} {others : List Phase} {failure : Option String}
    {effect : Option Migration} (hin : InOrder execute migrations start log db)
    (hnodup : (migrations.map (·.name)).Nodup) (hfollows : Follows migrations log phase)
    (hstep : step execute migrations failure db others phase = some (db', next, effect)) :
    InOrder execute migrations start (log ++ effect.toList) db' ∧
      Follows migrations (log ++ effect.toList) next := by
  cases phase with
  | ended result => cases hstep
  | create =>
      cases failure <;> cases hstep
      · exact ⟨hin.of_same rfl rfl, [], rfl, List.nil_prefix⟩
      · exact ⟨hin.of_same rfl rfl, trivial⟩
  | check rest =>
      obtain ⟨done, hrest, hdone⟩ := hfollows
      cases failure with
      | some message =>
          cases hstep
          exact ⟨hin.of_same rfl rfl, trivial⟩
      | none =>
          cases rest with
          | nil =>
              cases hstep
              refine ⟨hin.of_same rfl rfl, ?_⟩
              rw [List.append_nil] at hrest
              subst hrest
              simpa [Follows] using hin.prefixed.eq_of_length_le hdone.length_le
          | cons migration rest =>
              simp only [Migrate.step] at hstep
              split at hstep <;> cases hstep
              next hold =>
                have hseen := hin.seen_of_mem hnodup hrest hdone hold
                exact ⟨hin.of_same rfl rfl, done ++ [migration], by simpa using hrest,
                  by simpa using hseen⟩
              next => exact ⟨hin.of_same rfl rfl, done, hrest, by simpa using hdone⟩
  | apply migration rest =>
      obtain ⟨done, hrest, hdone⟩ := hfollows
      cases failure with
      | some message =>
          cases hstep
          exact ⟨hin.of_same rfl rfl, trivial⟩
      | none =>
          simp only [Migrate.step] at hstep
          split at hstep
          next =>
            cases hstep
            exact ⟨hin.of_same rfl rfl, trivial⟩
          next contents hrun =>
            split at hstep <;> cases hstep
            · exact ⟨hin.of_same rfl rfl, trivial⟩
            next hnew =>
              obtain rfl := hin.eq_of_notMem hrest hdone hnew
              exact ⟨hin.record hrest hrun, log ++ [migration], by simpa using hrest,
                List.prefix_refl _⟩

variable (execute) in
def invariant (hnodup : (migrations.map (·.name)).Nodup) (start : S) :
    TransactionInvariant (system execute migrations) where
  whole := InOrder execute migrations start
  own log _ := Follows migrations log
  apart _ _ := True
  symm := id
  step := by
    intro failure log db others phase db' next effect hwhole hfollows hothers hstep
    change Migrate.step execute migrations failure db others phase = _ at hstep
    obtain ⟨hin, hnext⟩ := hwhole.step hnodup hfollows hstep
    exact ⟨hin, hnext, fun other hother =>
      ⟨(hothers other hother).1.later (List.prefix_append _ _) hin.prefixed, trivial⟩⟩

/-- However many processes migrate at the same time and whenever one of them fails, the
migrations are applied in their order, each of them once and to what the ones before it
have made of the contents. A process that is told that all is well finds all of them
applied, and from then on nobody changes anything. -/
theorem migrate_in_order (execute : List Char → S → Except StoreError S)
    (migrations : List Migration) (hnodup : (migrations.map (·.name)).Nodup) (contents : S)
    (actions : List Action) :
    InOrder execute migrations contents (Server.after execute migrations contents actions).log
        (Server.after execute migrations contents actions).db ∧
      (.ended (.ok ()) ∈ (Server.after execute migrations contents actions).transactions →
        ∀ more, (Server.after execute migrations contents (actions ++ more)).log = migrations ∧
          (Server.after execute migrations contents (actions ++ more)).db.contents =
            (Server.after execute migrations contents actions).db.contents) := by
  have hnew : (invariant execute hnodup contents).Holds (Server.new contents) :=
    ⟨⟨List.nil_prefix, rfl, rfl⟩, fun _ hphase => absurd hphase List.not_mem_nil, .nil⟩
  have hholds : ∀ actions, (invariant execute hnodup contents).Holds
      (Server.after execute migrations contents actions) :=
    fun actions => hnew.run fun _ _ => ⟨fun _ _ _ => trivial, fun _ => trivial⟩
  refine ⟨(hholds actions).whole, fun hended more => ?_⟩
  have hall : (Server.after execute migrations contents actions).log = migrations :=
    (hholds actions).own _ hended
  have hkept : (Server.after execute migrations contents actions).log <+:
      (Server.after execute migrations contents (actions ++ more)).log := by
    rw [Server.after, Server.after, TransactionServer.run_append]
    exact TransactionServer.log_prefix_run _ _
  have hlater := (hholds (actions ++ more)).whole
  have hbefore := (hholds actions).whole.contents
  rw [hall] at hkept hbefore
  have hsame := hlater.prefixed.eq_of_length_le hkept.length_le
  have hafter := hlater.contents
  rw [hsame] at hafter
  exact ⟨hsame, Except.ok.inj (hafter.symm.trans hbefore)⟩

end Theory

namespace Racing

/-- The migrations of the store, each with one statement. -/
def named : List Migration := migrationNames.map fun name => ⟨name, (name ++ ";").toList⟩

/-- An engine that keeps the statements it has executed. -/
def keep (statement : List Char) (executed : List (List Char)) :
    Except StoreError (List (List Char)) := .ok (executed ++ [statement])

/-- Two processes start at once; the second one is late with the first migration. -/
def together : List Action :=
  [.start (), .start (), .advance 0 none, .advance 1 none, .advance 1 none] ++
    List.replicate 21 (.advance 0 none) ++ [.advance 1 none]

end Racing

open Racing in
/-- One process applies everything, and what the other one does comes to nothing. -/
theorem migrate_in_order_together :
    (Server.after keep named [] together).log = named ∧
      (Server.after keep named [] together).db.contents = named.map fun m => m.name.toList := by
  have hnodup : (named.map (·.name)).Nodup := by decide +kernel
  have hended : .ended (.ok ()) ∈ (Server.after keep named [] together).transactions := by
    have hfirst : (Server.after keep named [] together).transactions[0]? =
        some (.ended (.ok ())) := by decide +kernel
    exact List.mem_of_getElem? hfirst
  obtain ⟨_, hfinal⟩ := migrate_in_order keep named hnodup [] together
  exact ⟨(hfinal hended []).1, by decide +kernel⟩

end Kuatia.Migrate
