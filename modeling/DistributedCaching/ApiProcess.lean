import DistributedCaching.HealthReport
import DistributedCaching.ProductApi
import DistributedCaching.ProductListing

/-!
# The API process and its restarts

`main` of `cmd/api`: the configuration is read from the environment and checked, the
database is opened and migrated, and requests are served with a fresh cache if the server
can listen on its port.  The policy that the environment names is checked, but the cache
always replaces the least recently used entry; the port is not checked, and the listener
refuses one beyond 65535 after the database has been migrated.

The table outlives the process.  `lives_refine_catalogue` follows it through any number of
lives: every response of every life is one that the catalogue allows, where a start adds
the sample products that are missing and changes nothing else.  A product is never lost,
and keeps its id and its time of creation.
-/

namespace Shared

open Go

/-! ## Configuration -/

/-- `os.Getenv`; a variable that is not set is empty. -/
abbrev Environment := String → Text

def getEnv (env : Environment) (key : String) (defaultVal : Text) : Text :=
  if env key ≠ [] then env key else defaultVal

def getEnvInt (env : Environment) (key : String) (defaultVal : Int) : Int :=
  if env key = [] then defaultVal else (atoi (env key)).getD defaultVal

structure Config where
  evictionPolicy : Text
  cacheCapacity : Int
  invalidationStrategy : Text
  cacheClusterAddr : Text
  dbDSN : Text
  port : Int
  nodeID : Text
  peers : Text
  deriving DecidableEq, Repr

def validPolicies : List Text := ["lru".toList, "lfu".toList, "ttl".toList, "random".toList]

def validStrategies : List Text := ["ttl".toList, "write-through".toList, "write-behind".toList]

/-- `Load`; `beyond` is the table of printable characters beyond Latin-1. -/
def load (beyond : Char → Bool) (env : Environment) : Except Text Config :=
  let cfg : Config :=
    { evictionPolicy := getEnv env "EVICTION_POLICY" "lru".toList
      cacheCapacity := getEnvInt env "CACHE_CAPACITY" 10000
      invalidationStrategy := getEnv env "INVALIDATION_STRATEGY" "write-through".toList
      cacheClusterAddr := getEnv env "CACHE_CLUSTER_ADDR" []
      dbDSN := getEnv env "DB_DSN" []
      port := getEnvInt env "PORT" 8080
      nodeID := getEnv env "NODE_ID" []
      peers := getEnv env "PEERS" [] }
  if cfg.evictionPolicy ∉ validPolicies then
    .error ("invalid EVICTION_POLICY ".toList ++ quoteGo beyond cfg.evictionPolicy ++
      ": must be one of lru, lfu, ttl, random".toList)
  else if cfg.invalidationStrategy ∉ validStrategies then
    .error ("invalid INVALIDATION_STRATEGY ".toList ++ quoteGo beyond cfg.invalidationStrategy ++
      ": must be one of ttl, write-through, write-behind".toList)
  else if cfg.cacheCapacity < 1 ∨ cfg.cacheCapacity > 1000000 then
    .error ("invalid CACHE_CAPACITY ".toList ++ formatInt cfg.cacheCapacity ++
      ": must be between 1 and 1000000".toList)
  else .ok cfg

theorem getEnv_nil (env : Environment) (key : String) : getEnv env key [] = env key := by
  unfold getEnv
  split
  · rfl
  · rename_i hempty
    exact (not_not.mp hempty).symm

/-- What holds of a configuration that is accepted. -/
theorem load_ok {beyond : Char → Bool} {env : Environment} {cfg : Config}
    (h : load beyond env = .ok cfg) :
    cfg.invalidationStrategy = getEnv env "INVALIDATION_STRATEGY" "write-through".toList ∧
      cfg.dbDSN = env "DB_DSN" ∧ cfg.port = getEnvInt env "PORT" 8080 ∧
      1 ≤ cfg.cacheCapacity ∧ cfg.cacheCapacity ≤ 1000000 := by
  unfold load at h
  dsimp only at h
  split at h
  · cases h
  · split at h
    · cases h
    · split at h
      · cases h
      · rename_i hcap
        cases h
        rw [not_or, not_lt, not_lt] at hcap
        exact ⟨rfl, getEnv_nil env _, rfl, hcap⟩

end Shared

namespace Db

open Go

variable {F : Type}

/-! ## Migration of a table -/

/-- `migrate` on the table of a running database. -/
def migrateTable (usd : Nat → F) (now : Time) (t : Table F) : Table F :=
  (seedProducts usd now).foldl insertNew t

end Db

namespace Api

open Go Cache Eviction Shared

/-! ## The process -/

def buildInvalidationStrategy (name : Text) : Strategy :=
  if name = "write-through".toList then .writeThrough
  else if name = "write-behind".toList then .writeBehind
  else .ttl

/-- How `db.New` ends. -/
inductive Opening
  | opened
  /-- With an error.  One that comes from the migration may come after its commit. -/
  | failed (error : String) (migrated : Bool)
  deriving DecidableEq

/-- The table is migrated. -/
def Opening.migrated : Opening → Bool
  | .opened => true
  | .failed _ migrated => migrated

/-- A life of the process: what it starts with, and the requests it serves. -/
structure Life where
  env : Environment
  db : Opening
  /-- The transaction time of the migration. -/
  now : Time
  /-- The error of listening on a port that exists. -/
  listenError : Option String
  requests : List (HttpRequest CacheInput)

/-- The port that `main` passes to `NewServer`. -/
def serverPort (port : Int) : Int := if port = 0 then 8081 else port

/-- The error with which `ListenAndServe` returns before it accepts a connection. -/
def listenAndServe (port : Int) (listenError : Option String) : Option Text :=
  if 0 ≤ port ∧ port ≤ 65535 then listenError.map String.toList
  else some ("listen tcp: address ".toList ++ formatInt port ++ ": invalid port".toList)

section Process

variable {F : Type} (beyond : Char → Bool) (usd : Nat → F)

/-- `main` up to the first request: the cache and the strategy, or the text it ends with, and
the table in either case. -/
def startApi (table : Db.Table F) (life : Life) :
    Except Text (InMemoryCache Policy × Strategy) × Db.Table F :=
  match load beyond life.env with
  | .error e => (.error ("config error: ".toList ++ e), table)
  | .ok cfg =>
      if cfg.dbDSN = [] then (.error "DB_DSN environment variable is required".toList, table)
      else
        let table := if life.db.migrated then Db.migrateTable usd life.now table else table
        match life.db with
        | .failed e _ => (.error ("api: db connect error: ".toList ++ e.toList), table)
        | .opened =>
            match listenAndServe (serverPort cfg.port) life.listenError with
            | some e => (.error ("api: server stopped: ".toList ++ e), table)
            | none =>
                (.ok (InMemoryCache.new cfg.cacheCapacity.toNat (newPolicy .lru),
                  buildInvalidationStrategy cfg.invalidationStrategy), table)

variable (formats : Formats F) (numeric : F → F) (explain : Text → String)

/-- A life: its responses and the table it leaves.  Only write-through is followed; `none`
is a life under another strategy. -/
def live (table : Db.Table F) (life : Life) : Option (List Response × Db.Table F) :=
  match startApi beyond usd table life with
  | (.error _, table) => some ([], table)
  | (.ok (cache, .writeThrough), table) =>
      let served := handleAll formats numeric explain ⟨cache, table⟩ life.requests
      some (served.1, served.2.table)
  | (.ok (_, _), _) => none

/-- Lives one after the other, on one table. -/
def liveAll (table : Db.Table F) : List Life → Option (List (List Response) × Db.Table F)
  | [] => some ([], table)
  | life :: lives => do
      let (rs, table) ← live beyond usd formats numeric explain table life
      let (rss, table) ← liveAll table lives
      return (rs :: rss, table)

/-! ## The catalogue over several lives -/

/-- The catalogue with the sample products that it lacks. -/
def withSamples (now : Time) (cat : Products F) : Products F :=
  fun id => (cat id).or (((Db.seedProducts usd now).find? fun p => p.id = id).map dbToAPIProduct)

/-- The process gets to its database: the configuration is accepted and names one. -/
def Configured (env : Environment) : Prop := (load beyond env).isOk = true ∧ env "DB_DSN" ≠ []

/-- A life in which the sample products are added. -/
def Migrates (life : Life) : Prop := Configured beyond life.env ∧ life.db.migrated = true

/-- A life that serves requests: the database is opened, the port is one that exists, and the
server can listen on it. -/
def Serves (life : Life) : Prop :=
  Configured beyond life.env ∧ life.db = .opened ∧
    0 ≤ serverPort (getEnvInt life.env "PORT" 8080) ∧
    serverPort (getEnvInt life.env "PORT" 8080) ≤ 65535 ∧ life.listenError = none

/-- What the catalogue allows a life: one that does not come to serving serves nothing, with or
without the sample products added, and any other serves the catalogue with them. -/
inductive Lives : Products F → List Life → List (List Response) → Products F → Prop
  | nil (cat : Products F) : Lives cat [] [] cat
  | refused {cat cat' : Products F} {life : Life} {lives : List Life}
      {rss : List (List Response)} (hstart : ¬ Migrates beyond life)
      (tail : Lives cat lives rss cat') : Lives cat (life :: lives) ([] :: rss) cat'
  | unheard {cat cat' : Products F} {life : Life} {lives : List Life}
      {rss : List (List Response)} (hstart : Migrates beyond life) (hserve : ¬ Serves beyond life)
      (tail : Lives (withSamples usd life.now cat) lives rss cat') :
      Lives cat (life :: lives) ([] :: rss) cat'
  | served {cat cat' cat'' : Products F} {life : Life} {lives : List Life} {rs : List Response}
      {rss : List (List Response)} (hserve : Serves beyond life)
      (head : AnswersAll formats numeric explain (withSamples usd life.now cat) life.requests rs cat')
      (tail : Lives cat' lives rss cat'') : Lives cat (life :: lives) (rs :: rss) cat''

/-- Nothing is lost: every product is still there, with its id and its time of creation. -/
def Keeps (cat cat' : Products F) : Prop :=
  ∀ id p, cat id = some p → ∃ p', cat' id = some p' ∧ p'.id = p.id ∧ p'.createdAt = p.createdAt

variable {beyond usd formats numeric explain}

theorem Keeps.refl (cat : Products F) : Keeps cat cat := fun _ p hp => ⟨p, hp, rfl, rfl⟩

theorem Keeps.trans {cat cat' cat'' : Products F} (h : Keeps cat cat') (h' : Keeps cat' cat'') :
    Keeps cat cat'' := by
  intro id p hp
  obtain ⟨p', hp', hid, hcreated⟩ := h id p hp
  obtain ⟨p'', hp'', hid', hcreated'⟩ := h' id p' hp'
  exact ⟨p'', hp'', hid'.trans hid, hcreated'.trans hcreated⟩

/-- The samples replace no product. -/
theorem keeps_withSamples (usd : Nat → F) (now : Time) (cat : Products F) :
    Keeps cat (withSamples usd now cat) := by
  intro id p hp
  exact ⟨p, by simp [withSamples, hp], rfl, rfl⟩

/-- One answer loses nothing. -/
theorem keeps_answers {cat cat' : Products F} {req : HttpRequest CacheInput} {r : Response}
    (h : Answers formats numeric explain cat req r cat') : Keeps cat cat' := by
  cases h with
  | @updated id _ i _ req p _ _ hp _ =>
      intro k q hq
      by_cases hk : k = id
      · subst hk
        rw [hp] at hq
        cases hq
        exact ⟨_, Function.update_self _ _ _, rfl, rfl⟩
      · exact ⟨q, by rw [Function.update_of_ne hk, hq], rfl, rfl⟩
  | @created _ i _ p _ _ _ hp _ =>
      intro k q hq
      have hk : k ≠ p.id := by
        rintro rfl
        rw [hp] at hq
        cases hq
      exact ⟨q, by rw [Function.update_of_ne hk, hq], rfl, rfl⟩
  | _ => exact Keeps.refl _

/-- Requests lose no product. -/
theorem keeps_answersAll {cat cat' : Products F} {reqs : List (HttpRequest CacheInput)}
    {rs : List Response} (h : AnswersAll formats numeric explain cat reqs rs cat') :
    Keeps cat cat' := by
  induction h with
  | nil cat => exact Keeps.refl cat
  | cons head tail ih => exact (keeps_answers head).trans ih

/-- Lives of the process lose no product. -/
theorem keeps_lives {cat cat' : Products F} {lives : List Life} {rss : List (List Response)}
    (h : Lives beyond usd formats numeric explain cat lives rss cat') : Keeps cat cat' := by
  induction h with
  | nil cat => exact Keeps.refl cat
  | refused _ tail ih => exact ih
  | unheard _ _ tail ih => exact (keeps_withSamples usd _ _).trans ih
  | served _ head tail ih =>
      exact (keeps_withSamples usd _ _).trans ((keeps_answersAll head).trans ih)

/-! ## The migration adds what is missing -/

/-- A new row under a free id adds a product; under a taken one it changes nothing. -/
theorem productsOf_insertNew (t : Db.Table F) (p : Db.Product F) (id : String) :
    productsOf (Db.insertNew t p) id =
      (productsOf t id).or (if p.id = id then some (dbToAPIProduct p) else none) := by
  unfold Db.insertNew
  by_cases hmem : p.id ∈ t
  · rw [if_pos hmem]
    by_cases hid : p.id = id
    · subst hid
      obtain ⟨row, hrow⟩ := Option.isSome_iff_exists.mp (AList.lookup_isSome.mpr hmem)
      simp [productsOf, hrow]
    · simp [hid]
  · rw [if_neg hmem, productsOf_insert]
    by_cases hid : p.id = id
    · subst hid
      simp [productsOf, AList.lookup_eq_none.mpr hmem]
    · simp [Function.update_of_ne (Ne.symm hid), hid]

/-- Rows that are inserted one after the other: the first one with an id counts. -/
theorem productsOf_foldl_insertNew (ps : List (Db.Product F)) (t : Db.Table F) (id : String) :
    productsOf (ps.foldl Db.insertNew t) id =
      (productsOf t id).or ((ps.find? fun p => p.id = id).map dbToAPIProduct) := by
  induction ps generalizing t with
  | nil => simp
  | cons p ps ih =>
      rw [List.foldl_cons, ih, productsOf_insertNew, Option.or_assoc]
      by_cases hid : p.id = id <;> simp [hid]

/-- A migration adds the sample products that are not there. -/
theorem productsOf_migrateTable (usd : Nat → F) (now : Time) (t : Db.Table F) :
    productsOf (Db.migrateTable usd now t) = withSamples usd now (productsOf t) := by
  funext id
  exact productsOf_foldl_insertNew _ t id

/-! ## One life and all lives -/

/-- A variable that is unset, or set to the default, gives the default. -/
theorem getEnv_of_env {env : Environment} {key : String} {value : Text}
    (h : env key = [] ∨ env key = value) : getEnv env key value = value := by
  unfold getEnv
  rcases h with h | h
  · simp [h]
  · split
    · exact h
    · rfl

/-- The server listens exactly if the port is one and the system lets it. -/
theorem listenAndServe_eq_none {port : Int} {listenError : Option String} :
    listenAndServe port listenError = none ↔
      0 ≤ port ∧ port ≤ 65535 ∧ listenError = none := by
  unfold listenAndServe
  split
  · rename_i hport
    simp [hport]
  · rename_i hport
    simp only [reduceCtorEq, false_iff]
    exact fun h => hport ⟨h.1, h.2.1⟩

/-- The table is migrated in the lives in which it should be. -/
theorem productsOf_startApi (beyond : Char → Bool) (usd : Nat → F) (table : Db.Table F)
    (life : Life) :
    (¬ Migrates beyond life → (startApi beyond usd table life).2 = table) ∧
      (Migrates beyond life → productsOf (startApi beyond usd table life).2 =
        withSamples usd life.now (productsOf table)) := by
  rw [← productsOf_migrateTable]
  unfold startApi Migrates Configured
  -- The migration is not to be unfolded: its rows are compared as strings.
  generalize Db.migrateTable usd life.now table = migrated
  cases hload : load beyond life.env with
  | error e => exact ⟨fun _ => rfl, fun h => (by cases h.1.1)⟩
  | ok cfg =>
      obtain ⟨_, hdsn, _⟩ := load_ok hload
      by_cases hempty : life.env "DB_DSN" = []
      · simp only [if_pos (hdsn.trans hempty)]
        exact ⟨fun _ => trivial, fun h => absurd hempty h.1.2⟩
      · simp only [if_neg (hdsn.trans_ne hempty)]
        cases life.db with
        | failed e isMigrated =>
            cases isMigrated with
            | true => exact ⟨fun h => absurd ⟨⟨rfl, hempty⟩, rfl⟩ h, fun _ => rfl⟩
            | false => exact ⟨fun _ => rfl, fun h => (by cases h.2)⟩
        | opened =>
            refine ⟨fun h => absurd ⟨⟨rfl, hempty⟩, rfl⟩ h, fun _ => ?_⟩
            cases listenAndServe (serverPort cfg.port) life.listenError <;> rfl

/-- A life serves exactly if it should; then nothing stale is cached, and the strategy is
write-through if the environment asks for no other. -/
theorem startApi_cases (beyond : Char → Bool) (usd : Nat → F) (formats : Formats F)
    (table : Db.Table F) (life : Life)
    (hstrategy : life.env "INVALIDATION_STRATEGY" = [] ∨
      life.env "INVALIDATION_STRATEGY" = "write-through".toList) :
    (¬ Serves beyond life ∧ ∃ e, (startApi beyond usd table life).1 = .error e) ∨
    (Serves beyond life ∧ ∃ cache, (startApi beyond usd table life).1 = .ok (cache, .writeThrough) ∧
      ∀ table, CachedCurrent formats (⟨cache, table⟩ : Service (InMemoryCache Policy) F)) := by
  unfold startApi Serves Configured
  cases hload : load beyond life.env with
  | error e => exact Or.inl ⟨fun h => (by cases h.1.1), _, rfl⟩
  | ok cfg =>
      obtain ⟨hname, hdsn, hport, hmin, _⟩ := load_ok hload
      by_cases hempty : life.env "DB_DSN" = []
      · simp only [if_pos (hdsn.trans hempty)]
        exact Or.inl ⟨fun h => h.1.2 hempty, _, rfl⟩
      · simp only [if_neg (hdsn.trans_ne hempty)]
        rw [← hport, ← listenAndServe_eq_none]
        cases life.db with
        | failed e migrated => exact Or.inl ⟨fun h => (by cases h.2.1), _, rfl⟩
        | opened =>
            cases hlisten : listenAndServe (serverPort cfg.port) life.listenError with
            | some e => exact Or.inl ⟨fun h => (by cases h.2.2), _, rfl⟩
            | none =>
                have hcap : 1 ≤ cfg.cacheCapacity.toNat := by omega
                have hbuild :
                    buildInvalidationStrategy cfg.invalidationStrategy = .writeThrough := by
                  rw [hname, getEnv_of_env hstrategy, buildInvalidationStrategy, if_pos rfl]
                refine Or.inr ⟨⟨⟨rfl, hempty⟩, rfl, rfl⟩, _, ?_,
                  cachedCurrent_new formats .lru hcap⟩
                rw [hbuild]

/-- One life, whatever lives come after it. -/
theorem live_lives (beyond : Char → Bool) (usd : Nat → F) (formats : Formats F)
    (numeric : F → F) (explain : Text → String) (table : Db.Table F) (life : Life)
    (hstrategy : life.env "INVALIDATION_STRATEGY" = [] ∨
      life.env "INVALIDATION_STRATEGY" = "write-through".toList) :
    ∃ rs table', live beyond usd formats numeric explain table life = some (rs, table') ∧
      ∀ {lives rss cat}, Lives beyond usd formats numeric explain (productsOf table') lives rss cat →
        Lives beyond usd formats numeric explain (productsOf table) (life :: lives) (rs :: rss)
          cat := by
  obtain ⟨hkept, hadded⟩ := productsOf_startApi beyond usd table life
  have hcases := startApi_cases beyond usd formats table life hstrategy
  rw [live]
  generalize startApi beyond usd table life = start at hkept hadded hcases
  obtain ⟨result, table'⟩ := start
  rcases hcases with ⟨hnot, e, rfl⟩ | ⟨hserve, cache, rfl, hcurrent⟩
  · refine ⟨[], table', rfl, fun htail => ?_⟩
    by_cases hmigrates : Migrates beyond life
    · exact .unheard hmigrates hnot (hadded hmigrates ▸ htail)
    · exact .refused hmigrates (hkept hmigrates ▸ htail)
  · have hanswers : AnswersAll formats numeric explain (productsOf table') life.requests _ _ :=
      answersAll_handleAll acceptsWrites_inMemory (hcurrent table') life.requests
    have hmigrates : Migrates beyond life := ⟨hserve.1, by rw [hserve.2.1]; rfl⟩
    rw [hadded hmigrates] at hanswers
    exact ⟨_, _, rfl, fun htail => .served hserve hanswers htail⟩

/-- The run lemma, by induction on the lives. -/
theorem liveAll_lives (beyond : Char → Bool) (usd : Nat → F) (formats : Formats F)
    (numeric : F → F) (explain : Text → String) (lives : List Life) (table : Db.Table F)
    (hstrategy : ∀ life ∈ lives, life.env "INVALIDATION_STRATEGY" = [] ∨
      life.env "INVALIDATION_STRATEGY" = "write-through".toList) :
    ∃ rss table', liveAll beyond usd formats numeric explain table lives = some (rss, table') ∧
      Lives beyond usd formats numeric explain (productsOf table) lives rss
        (productsOf table') := by
  induction lives generalizing table with
  | nil => exact ⟨[], table, rfl, .nil _⟩
  | cons life lives ih =>
      obtain ⟨rs, table', hlive, hallowed⟩ := live_lives beyond usd formats numeric explain table
        life (hstrategy life List.mem_cons_self)
      obtain ⟨rss, table'', hrun, htail⟩ :=
        ih table' fun l hl => hstrategy l (List.mem_cons_of_mem _ hl)
      refine ⟨rs :: rss, table'', ?_, hallowed htail⟩
      rw [liveAll, hlive, Option.bind_eq_bind, Option.bind_some]
      dsimp only
      rw [hrun]
      rfl

end Process

/-- An environment with a database, a capacity and a port. -/
def envWith (capacity port : Text) : Environment := fun key =>
  if key = "DB_DSN" then "postgres://db".toList
  else if key = "CACHE_CAPACITY" then capacity
  else if key = "PORT" then port
  else []

/-- A life whose database does not answer, one with a capacity that is refused, one with a
port that is refused after the migration, and one that serves what the third has added: with
the default capacity, since its own is no number, and on port 8081. -/
def fourLives : List Life :=
  [⟨envWith "many".toList [], .failed "timeout" false, 5, none, []⟩,
   ⟨envWith "0".toList [], .opened, 10, none, [.get "prod-001" (.atTime 11)]⟩,
   ⟨envWith [] "70000".toList, .opened, 20, none, [.get "prod-001" (.atTime 21)]⟩,
   ⟨envWith "many".toList "0".toList, .opened, 30, none,
      [.get "prod-001" (.atTime 31), .get "prod-011" (.atTime 32)]⟩]

end Api
