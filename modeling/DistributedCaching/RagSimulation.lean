import DistributedCaching.PrefixCounting
import DistributedCaching.RagPrefix

/-!
# The RAG simulation

`run_rag_simulation` of Python, with every error that it can raise.  Two modules check its
input: `RAGConfig.validate` bounds each field, and `validate_seq_len` bounds the length of
the prefix that the cost functions are asked about, which is a product of two of the
fields.  A valid configuration can exceed the second bound: then the first request raises
(`rag_run_outcome`).  Otherwise the run completes, and its cache is the one of the
workload model (`serveAll`), whose laws then hold of the report.

A request draws batches from the sampler until it has enough indices in range; a sampler
that never supplies them leaves the request unfinished.  Integers become floating-point
numbers where Python converts them, which fails for integers that round to infinity.
-/

namespace Llmsim.Rag

open Go
open Llm (PrefixHash Request serveAll emptyPython)

/-- What the simulation can raise, with the message. -/
inductive PyError
  | seqLenRangeError (message : String)
  | ragConfigError (message : String)
  | documentStoreParamError (message : String)
  | valueError (message : String)
  | overflowError (message : String)
  | zeroDivisionError (message : String)
  deriving DecidableEq, Repr

/-! ## Models and their costs -/

/-- The fields of a model that its costs depend on. -/
structure ModelConfig where
  name : String
  numLayers : Int
  numQHeads : Int
  headDim : Int
  deriving DecidableEq, Repr

def maxSeqLen : Int := 1048576

def validateSeqLen (seqLen : Int) : Except PyError Unit :=
  if seqLen < 0 then .error (.seqLenRangeError ("seq_len must be >= 0, got " ++ toString seqLen))
  else if seqLen > maxSeqLen then
    .error (.seqLenRangeError
      ("seq_len must be <= " ++ toString maxSeqLen ++ ", got " ++ toString seqLen))
  else .ok ()

/-- The least integer that rounds to infinity. -/
def floatLimit : Nat := 2 ^ 1024 - 2 ^ 970

/-- An integer as a floating-point number. -/
def toFloat (n : Int) : Except PyError Float :=
  if n.natAbs < floatLimit then .ok (Float.ofInt n)
  else .error (.overflowError "int too large to convert to float")

/-- The quotient of a floating-point number and an integer. -/
def divInt (x : Float) (n : Int) : Except PyError Float :=
  if n = 0 then .error (.zeroDivisionError "float division by zero")
  else (toFloat n).map fun y => x / y

namespace ModelConfig

def attentionFlops (m : ModelConfig) (seqLen : Int) : Except PyError Float := do
  validateSeqLen seqLen
  let layers ← toFloat m.numLayers
  let heads ← toFloat m.numQHeads
  let dim ← toFloat m.headDim
  let len ← toFloat seqLen
  return layers * (4.0 * heads * dim * len * len)

def attentionTflops (m : ModelConfig) (seqLen : Int) : Except PyError Float :=
  (m.attentionFlops seqLen).map fun flops => flops / 1e12

def costUsd (m : ModelConfig) (seqLen : Int) : Except PyError Float :=
  (m.attentionTflops seqLen).map fun tflops => tflops / 312.0 / 3600.0 * 2.50

end ModelConfig

def llama3_70B : ModelConfig := ⟨"Llama-3-70B", 80, 64, 128⟩

/-- `ALL_MODELS`. -/
def allModels : List ModelConfig :=
  [⟨"Llama-3-8B", 32, 32, 128⟩, llama3_70B, ⟨"Mistral-7B", 32, 32, 128⟩,
    ⟨"Mixtral-8x7B", 32, 32, 128⟩, ⟨"Qwen2.5-72B", 80, 64, 128⟩, ⟨"DeepSeek-R1-671B", 61, 128, 128⟩]

/-! ## Configurations -/

/-- `RAGConfig`, over the type of the exponent. -/
structure RAGConfig (F : Type) where
  model : ModelConfig
  numDocuments : Int
  tokensPerDoc : Int
  topK : Int
  queryTokens : Int
  numRequests : Int
  zipfExponent : F
  requestsPerDay : Int
  deriving DecidableEq, Repr

/-- Raise unless the condition holds. -/
def check (condition : Prop) [Decidable condition] (message : String) : Except PyError Unit :=
  if condition then .ok () else .error (.ragConfigError message)

section Config

variable {F : Type} [Zero F] [LT F] [DecidableLT F] [ToString F]

def RAGConfig.validate (cfg : RAGConfig F) : Except PyError Unit := do
  check (1 ≤ cfg.numDocuments ∧ cfg.numDocuments ≤ 1000000)
    ("num_documents must be in [1, 1_000_000], got " ++ toString cfg.numDocuments)
  check (1 ≤ cfg.tokensPerDoc ∧ cfg.tokensPerDoc ≤ 1000000)
    ("tokens_per_doc must be in [1, 1_000_000], got " ++ toString cfg.tokensPerDoc)
  check (1 ≤ cfg.topK ∧ cfg.topK ≤ cfg.numDocuments)
    ("top_k must be in [1, num_documents=" ++ toString cfg.numDocuments ++ "], got " ++
      toString cfg.topK)
  check (0 ≤ cfg.queryTokens ∧ cfg.queryTokens ≤ 1000000)
    ("query_tokens must be in [0, 1_000_000], got " ++ toString cfg.queryTokens)
  check (1 ≤ cfg.numRequests ∧ cfg.numRequests ≤ 10000000)
    ("num_requests must be in [1, 10_000_000], got " ++ toString cfg.numRequests)
  check (0 < cfg.zipfExponent)
    ("zipf_exponent must be > 0.0, got " ++ toString cfg.zipfExponent)
  check (1 ≤ cfg.requestsPerDay ∧ cfg.requestsPerDay ≤ 1000000000)
    ("requests_per_day must be in [1, 1_000_000_000], got " ++ toString cfg.requestsPerDay)

end Config

variable {F : Type}

/-- `default_rag_config`, with its exponent, 1.2. -/
def defaultRagConfig (zipfExponent : F) : RAGConfig F where
  model := llama3_70B
  numDocuments := 200
  tokensPerDoc := 512
  topK := 3
  queryTokens := 64
  numRequests := 5000
  zipfExponent := zipfExponent
  requestsPerDay := 1000000

/-- `top_k * tokens_per_doc + query_tokens`. -/
def RAGConfig.prefixTokens (cfg : RAGConfig F) : Int :=
  cfg.topK * cfg.tokensPerDoc + cfg.queryTokens

/-- The checks of `DocumentStore.__init__`; the run never looks at the documents. -/
def newDocumentStore (numDocs tokensPerDoc : Int) : Except PyError Unit :=
  if numDocs < 1 then
    .error (.documentStoreParamError ("num_docs must be >= 1, got " ++ toString numDocs))
  else if tokensPerDoc < 1 then
    .error (.documentStoreParamError ("tokens_per_doc must be >= 1, got " ++ toString tokensPerDoc))
  else .ok ()

/-! ## Requests -/

/-- Why there is no result. -/
inductive Stop
  | raised (e : PyError)
  /-- The sampler has not supplied enough indices. -/
  | sampling
  deriving DecidableEq, Repr

/-- The zero-based indices of a batch that are in range. -/
def inRange (cfg : RAGConfig F) (raw : List Int) : List Int :=
  (raw.map fun x => x - 1).filter fun i => i < cfg.numDocuments

/-- The loop that draws batches until there are enough indices in range. -/
def sampleIndices (cfg : RAGConfig F) (indices : List Int) : List (List Int) → Except Stop (List Int)
  | [] =>
      if (indices.length : Int) < cfg.topK then .error .sampling
      else .ok (indices.take cfg.topK.toNat)
  | raw :: batches =>
      if (indices.length : Int) < cfg.topK then
        sampleIndices cfg (indices ++ inRange cfg raw) batches
      else .ok (indices.take cfg.topK.toNat)

/-- `new_entry_for_token_count`. -/
def newEntryForTokenCount (hash : PrefixHash) (tokenCount : Int) (model : ModelConfig) :
    Except PyError CacheEntry := do
  let tflopsCost ← model.attentionTflops tokenCount
  let costUSD ← model.costUsd tokenCount
  return { prefixHash := hash.text, model := model.name, tokenCount := tokenCount.toNat
           tflopsCost := tflopsCost, costUSD := costUSD, hitCount := 0 }

variable (sha256 : Bytes → Vector UInt8 32)

/-- Look the prefix of a retrieval up, and store it on a miss. -/
def serve (cfg : RAGConfig F) (cache : PrefixCache) (docIndices : List Int) :
    Except PyError PrefixCache :=
  let h := hashPrefix sha256 (buildPrefixTokens docIndices cfg.queryTokens)
  match cache.lookup h.text with
  | (some _, cache) => .ok cache
  | (none, cache) => (newEntryForTokenCount h cfg.prefixTokens cfg.model).map cache.store

/-- One iteration, with the batches that the sampler supplies for it. -/
def iterate (cfg : RAGConfig F) (cache : PrefixCache) (batches : List (List Int)) :
    Except Stop PrefixCache := do
  let docIndices ← sampleIndices cfg [] batches
  (serve sha256 cfg cache docIndices).mapError .raised

/-! ## The report -/

structure RAGResult (F : Type) where
  config : RAGConfig F
  stats : CacheStats
  prefixTokens : Int
  costPerMissUsd : Float
  withoutCacheUsd : Float
  withCacheUsd : Float
  savingsUsd : Float
  savingsPct : Float
  perReqWithoutUsd : Float
  perReqWithUsd : Float
  monthlyRequests : Int
  monthlyWithout : Float
  monthlyWith : Float
  monthlySavings : Float

/-- The cost part of the run. -/
def report (cfg : RAGConfig F) (stats : CacheStats) : Except PyError (RAGResult F) := do
  let costPerMiss ← cfg.model.costUsd cfg.prefixTokens
  let requests ← toFloat cfg.numRequests
  let withoutCache := costPerMiss * requests
  let misses ← toFloat stats.cacheMisses
  let withCache := costPerMiss * misses
  let savingsUsd := withoutCache - withCache
  let savingsPct := if withoutCache > 0 then savingsUsd / withoutCache * 100 else 0
  let perReqWithout ← divInt withoutCache cfg.numRequests
  let perReqWith ← divInt withCache cfg.numRequests
  let monthlyRequests := cfg.requestsPerDay * 30
  let months ← toFloat monthlyRequests
  let monthlyWithout := perReqWithout * months
  let monthlyWith := perReqWith * months
  return {
    config := cfg, stats := stats, prefixTokens := cfg.prefixTokens
    costPerMissUsd := costPerMiss, withoutCacheUsd := withoutCache, withCacheUsd := withCache
    savingsUsd := savingsUsd, savingsPct := savingsPct
    perReqWithoutUsd := perReqWithout, perReqWithUsd := perReqWith
    monthlyRequests := monthlyRequests, monthlyWithout := monthlyWithout
    monthlyWith := monthlyWith, monthlySavings := monthlyWithout - monthlyWith }

/-- `run_rag_simulation`; `draws i` are the batches for request `i`. -/
def runRagSimulation [Zero F] [LT F] [DecidableLT F] [ToString F] (cfg : RAGConfig F)
    (draws : Nat → List (List Int)) : Except Stop (RAGResult F) := do
  cfg.validate.mapError .raised
  (newDocumentStore cfg.numDocuments cfg.tokensPerDoc).mapError .raised
  let cache ← (PrefixCache.init 100000).mapError fun message => .raised (.valueError message)
  let cache ← (List.range cfg.numRequests.toNat).foldlM
    (fun cache i => iterate sha256 cfg cache (draws i)) cache
  (report cfg cache.stats).mapError .raised

/-! ## What the checks establish -/

section Checks

variable {α : Type} {condition : Prop} [Decidable condition] {message : String}

/-- A check passes exactly if its condition holds. -/
theorem check_ok : check condition message = .ok () ↔ condition := by
  by_cases h : condition <;> simp [check, h]

theorem check_bind_ok {next : Unit → Except PyError α} {result : α} :
    (check condition message >>= next) = .ok result ↔ condition ∧ next () = .ok result := by
  by_cases h : condition <;> simp [check, h, bind, Except.bind]

end Checks

/-- The ranges of the fields. -/
structure RAGConfig.Valid [Zero F] [LT F] (cfg : RAGConfig F) : Prop where
  numDocuments : 1 ≤ cfg.numDocuments ∧ cfg.numDocuments ≤ 1000000
  tokensPerDoc : 1 ≤ cfg.tokensPerDoc ∧ cfg.tokensPerDoc ≤ 1000000
  topK : 1 ≤ cfg.topK ∧ cfg.topK ≤ cfg.numDocuments
  queryTokens : 0 ≤ cfg.queryTokens ∧ cfg.queryTokens ≤ 1000000
  numRequests : 1 ≤ cfg.numRequests ∧ cfg.numRequests ≤ 10000000
  zipfExponent : 0 < cfg.zipfExponent
  requestsPerDay : 1 ≤ cfg.requestsPerDay ∧ cfg.requestsPerDay ≤ 1000000000

/-- **The checks accept exactly the valid configurations.** -/
theorem RAGConfig.validate_ok_iff [Zero F] [LT F] [DecidableLT F] [ToString F]
    (cfg : RAGConfig F) : cfg.validate = .ok () ↔ cfg.Valid := by
  simp only [RAGConfig.validate, check_bind_ok, check_ok]
  constructor
  · intro ⟨hdocuments, htokens, htopK, hquery, hrequests, hzipf, hday⟩
    exact ⟨hdocuments, htokens, htopK, hquery, hrequests, hzipf, hday⟩
  · intro h
    exact ⟨h.numDocuments, h.tokensPerDoc, h.topK, h.queryTokens, h.numRequests, h.zipfExponent,
      h.requestsPerDay⟩

/-- The default configuration is valid. -/
theorem defaultRagConfig_valid [Zero F] [LT F] {zipfExponent : F} (h : 0 < zipfExponent) :
    (defaultRagConfig zipfExponent).Valid where
  numDocuments := by simp [defaultRagConfig]
  tokensPerDoc := by simp [defaultRagConfig]
  topK := by simp [defaultRagConfig]
  queryTokens := by simp [defaultRagConfig]
  numRequests := by simp [defaultRagConfig]
  zipfExponent := h
  requestsPerDay := by simp [defaultRagConfig]

/-! ## Costs that are defined -/

theorem lt_floatLimit {n : Int} (h : n.natAbs ≤ 2 ^ 40) : n.natAbs < floatLimit :=
  Nat.lt_of_le_of_lt h (by decide +kernel)

theorem toFloat_ok {n : Int} (h : n.natAbs < floatLimit) : toFloat n = .ok (Float.ofInt n) :=
  if_pos h

theorem toFloat_error {n : Int} (h : ¬ n.natAbs < floatLimit) :
    toFloat n = .error (.overflowError "int too large to convert to float") :=
  if_neg h

namespace ModelConfig

/-- The sizes of the model are floating-point numbers. -/
structure Representable (m : ModelConfig) : Prop where
  numLayers : m.numLayers.natAbs < floatLimit
  numQHeads : m.numQHeads.natAbs < floatLimit
  headDim : m.headDim.natAbs < floatLimit

/-- Every model of the table has numbers that a float represents. -/
theorem representable_of_mem_allModels : ∀ m ∈ allModels, m.Representable := by
  have hsmall : ∀ m ∈ allModels, m.numLayers.natAbs ≤ 2 ^ 40 ∧ m.numQHeads.natAbs ≤ 2 ^ 40 ∧
      m.headDim.natAbs ≤ 2 ^ 40 := by decide
  intro m hm
  obtain ⟨hlayers, hheads, hdim⟩ := hsmall m hm
  exact ⟨lt_floatLimit hlayers, lt_floatLimit hheads, lt_floatLimit hdim⟩

/-- The operations that a sequence takes. -/
def flops (m : ModelConfig) (seqLen : Int) : Float :=
  Float.ofInt m.numLayers *
    (4.0 * Float.ofInt m.numQHeads * Float.ofInt m.headDim * Float.ofInt seqLen *
      Float.ofInt seqLen)

/-- The model with the costs that it has where they are defined. -/
def priced (m : ModelConfig) : Llm.ModelConfig where
  name := m.name
  attentionTFLOPs n := m.flops n / 1e12
  costUSD n := m.flops n / 1e12 / 312.0 / 3600.0 * 2.50

variable {m : ModelConfig} {n : Int}

/-- For sequences up to the limit the operations are counted without error. -/
theorem attentionFlops_ok (hm : m.Representable) (hnonneg : 0 ≤ n) (hmax : n ≤ maxSeqLen) :
    m.attentionFlops n = .ok (m.flops n) := by
  have hlen : n.natAbs ≤ 2 ^ 40 := by
    unfold maxSeqLen at hmax
    omega
  simp only [attentionFlops, validateSeqLen, if_neg (Int.not_lt.mpr hnonneg),
    if_neg (Int.not_lt.mpr hmax), toFloat_ok hm.numLayers, toFloat_ok hm.numQHeads,
    toFloat_ok hm.headDim, toFloat_ok (lt_floatLimit hlen)]
  rfl

/-- A sequence that is too long. -/
theorem attentionFlops_long (hmax : maxSeqLen < n) :
    m.attentionFlops n = .error (.seqLenRangeError
      ("seq_len must be <= " ++ toString maxSeqLen ++ ", got " ++ toString n)) := by
  have hnonneg : ¬ n < 0 := by
    unfold maxSeqLen at hmax
    omega
  simp only [attentionFlops, validateSeqLen, if_neg hnonneg, if_pos hmax]
  rfl

/-- A model that is too large. -/
theorem attentionFlops_large (hm : ¬ m.Representable) (hnonneg : 0 ≤ n) (hmax : n ≤ maxSeqLen) :
    m.attentionFlops n =
      .error (.overflowError "int too large to convert to float") := by
  simp only [attentionFlops, validateSeqLen, if_neg (Int.not_lt.mpr hnonneg),
    if_neg (Int.not_lt.mpr hmax)]
  by_cases hlayers : m.numLayers.natAbs < floatLimit
  · rw [toFloat_ok hlayers]
    by_cases hheads : m.numQHeads.natAbs < floatLimit
    · rw [toFloat_ok hheads, toFloat_error fun hdim => hm ⟨hlayers, hheads, hdim⟩]
      rfl
    · rw [toFloat_error hheads]
      rfl
  · rw [toFloat_error hlayers]
    rfl

end ModelConfig

/-! ## One request -/

section Requests

variable {cfg : RAGConfig F} {m : ModelConfig} {n : Int} {hash : PrefixHash}

/-- The sampler supplies enough indices in range. -/
def Supplies (cfg : RAGConfig F) (batches : List (List Int)) : Prop :=
  cfg.topK ≤ (inRange cfg batches.flatten).length

instance (cfg : RAGConfig F) (batches : List (List Int)) : Decidable (Supplies cfg batches) :=
  inferInstanceAs (Decidable (_ ≤ _))

/-- The documents of a request: the first indices in range. -/
def sampled (cfg : RAGConfig F) (batches : List (List Int)) : List Int :=
  (inRange cfg batches.flatten).take cfg.topK.toNat

theorem inRange_append (raw raw' : List Int) :
    inRange cfg (raw ++ raw') = inRange cfg raw ++ inRange cfg raw' := by
  simp only [inRange, List.map_append, List.filter_append]

/-- The loop takes the first indices in range, of all batches together. -/
theorem sampleIndices_from (indices : List Int) (batches : List (List Int))
    (h : cfg.topK ≤ (indices ++ inRange cfg batches.flatten).length) :
    sampleIndices cfg indices batches =
      .ok ((indices ++ inRange cfg batches.flatten).take cfg.topK.toNat) := by
  induction batches generalizing indices with
  | nil =>
      have hnone : inRange cfg ([] : List (List Int)).flatten = [] := rfl
      rw [hnone, List.append_nil] at h ⊢
      exact if_neg (Int.not_lt.mpr h)
  | cons raw batches ih =>
      rw [sampleIndices]
      split
      · rw [List.flatten_cons, inRange_append, ← List.append_assoc] at h ⊢
        exact ih _ h
      · rename_i henough
        have hprefix : cfg.topK.toNat ≤ indices.length := by omega
        rw [List.take_append_of_le_length hprefix]

/-- A sampler that supplies enough returns the sampled documents. -/
theorem sampleIndices_ok {batches : List (List Int)} (h : Supplies cfg batches) :
    sampleIndices cfg [] batches = .ok (sampled cfg batches) :=
  sampleIndices_from [] batches h

/-- An entry for a length up to the limit is made without error. -/
theorem newEntry_ok (hm : m.Representable) (hnonneg : 0 ≤ n) (hmax : n ≤ maxSeqLen) :
    newEntryForTokenCount hash n m =
      .ok (Llmsim.newEntryForTokenCount hash n.toNat m.priced) := by
  have hn : ((n.toNat : Nat) : Int) = n := Int.toNat_of_nonneg hnonneg
  simp only [newEntryForTokenCount, ModelConfig.costUsd, ModelConfig.attentionTflops,
    ModelConfig.attentionFlops_ok hm hnonneg hmax, Llmsim.newEntryForTokenCount,
    ModelConfig.priced, hn]
  rfl

theorem newEntry_error {e : PyError} (h : m.attentionFlops n = .error e) :
    newEntryForTokenCount hash n m = .error e := by
  simp only [newEntryForTokenCount, ModelConfig.attentionTflops, h]
  rfl

/-- The request that the batches of one iteration lead to.  The Python cache does not read
the clock and does not scan. -/
def requestOf (cfg : RAGConfig F) (batches : List (List Int)) : Request where
  hash := hashPrefix sha256 (buildPrefixTokens (sampled cfg batches) cfg.queryTokens)
  tokenCount := cfg.prefixTokens.toNat
  model := cfg.model.priced
  now := 0
  cachedAt := 0
  range := .listed

variable {sha256} {batches : List (List Int)} {cache : PrefixCache}

/-- **A retrieval is served**, where the cost of the prefix is defined. -/
theorem serve_ok (hm : cfg.model.Representable) (hnonneg : 0 ≤ cfg.prefixTokens)
    (hmax : cfg.prefixTokens ≤ maxSeqLen) :
    serve sha256 cfg cache (sampled cfg batches) =
      .ok (cache.request (requestOf sha256 cfg batches)).2 := by
  simp only [serve, newEntry_ok hm hnonneg hmax, PrefixCache.request, PrefixCache.warm, requestOf]
  generalize cache.lookup _ = found
  obtain ⟨_ | e, cache'⟩ := found
  · rfl
  · rfl

/-- A miss raises the error of the cost functions. -/
theorem serve_error {e : PyError} (h : cfg.model.attentionFlops cfg.prefixTokens = .error e)
    (hmiss : ∀ k, cache.entries.lookup k = none) (docIndices : List Int) :
    serve sha256 cfg cache docIndices = .error e := by
  simp only [serve, PrefixCache.lookup, hmiss, newEntry_error h]
  rfl

end Requests

/-! ## The run -/

section Run

variable {sha256} {cfg : RAGConfig F} {draws : Nat → List (List Int)}

/-- **The iterations serve the requests of the workload**, where the cost is defined. -/
theorem iterations_ok (hm : cfg.model.Representable) (hnonneg : 0 ≤ cfg.prefixTokens)
    (hmax : cfg.prefixTokens ≤ maxSeqLen) (is : List Nat)
    (hdraws : ∀ i ∈ is, Supplies cfg (draws i)) (cache : PrefixCache) :
    is.foldlM (fun cache i => iterate sha256 cfg cache (draws i)) cache =
      .ok (serveAll PrefixCache.request cache
        (is.map fun i => requestOf sha256 cfg (draws i))).2 := by
  induction is generalizing cache with
  | nil => rfl
  | cons i is ih =>
      have hi : iterate sha256 cfg cache (draws i) =
          .ok (cache.request (requestOf sha256 cfg (draws i))).2 := by
        simp only [iterate, sampleIndices_ok (hdraws i List.mem_cons_self)]
        show (serve sha256 cfg cache (sampled cfg (draws i))).mapError Stop.raised = _
        rw [serve_ok hm hnonneg hmax]
        rfl
      rw [List.foldlM_cons, hi]
      exact ih (fun j hj => hdraws j (List.mem_cons_of_mem _ hj)) _

/-- The first iteration raises the error of the cost functions. -/
theorem iterations_error {e : PyError}
    (h : cfg.model.attentionFlops cfg.prefixTokens = .error e) {n : Nat} (hn : 0 < n)
    (hdraws : Supplies cfg (draws 0)) (capacity : Int) :
    (List.range n).foldlM (fun cache i => iterate sha256 cfg cache (draws i))
      (emptyPython capacity) = .error (.raised e) := by
  obtain ⟨n, rfl⟩ := Nat.exists_eq_succ_of_ne_zero (Nat.ne_of_gt hn)
  have hzero : iterate sha256 cfg (emptyPython capacity) (draws 0) = .error (.raised e) := by
    simp only [iterate, sampleIndices_ok hdraws]
    show (serve sha256 cfg _ (sampled cfg (draws 0))).mapError Stop.raised = _
    rw [serve_error h fun k => rfl]
    rfl
  rw [List.range_succ_eq_map, List.foldlM_cons, hzero]
  rfl

/-- The cache after the run. -/
def served (sha256 : Bytes → Vector UInt8 32) (cfg : RAGConfig F)
    (draws : Nat → List (List Int)) : PrefixCache :=
  (serveAll PrefixCache.request (emptyPython 100000)
    ((List.range cfg.numRequests.toNat).map fun i => requestOf sha256 cfg (draws i))).2

variable (sha256) (draws) [Zero F] [LT F]

/-- A prefix of a valid configuration has no negative length. -/
theorem RAGConfig.Valid.prefixTokens_nonneg (h : cfg.Valid) : 0 ≤ cfg.prefixTokens := by
  have htopK := h.topK.1
  have htokens := h.tokensPerDoc.1
  have hproduct : 0 ≤ cfg.topK * cfg.tokensPerDoc := Int.mul_nonneg (by omega) (by omega)
  have hquery := h.queryTokens.1
  unfold RAGConfig.prefixTokens
  omega

/-- Every request is counted as a hit or a miss. -/
theorem served_misses (h : cfg.Valid) :
    (served sha256 cfg draws).stats.totalRequests = cfg.numRequests ∧
      0 ≤ (served sha256 cfg draws).stats.cacheMisses ∧
      (served sha256 cfg draws).stats.cacheMisses ≤ cfg.numRequests := by
  have hrequests := h.numRequests.1
  generalize hrs : (List.range cfg.numRequests.toNat).map
    (fun i => requestOf sha256 cfg (draws i)) = rs
  have hlength : rs.length = cfg.numRequests.toNat := by
    rw [← hrs, List.length_map, List.length_range]
  obtain ⟨htotal, hhits⟩ := Llm.pythonCache.counts_serve (s := emptyPython 100000) rs
    (Llm.pythonCache_empty 100000).2
  have hfew : (serveAll PrefixCache.request (emptyPython 100000) rs).1.count true ≤ rs.length :=
    Nat.le_trans List.count_le_length
      (Nat.le_of_eq (Llm.StoreOnMiss.length_answers PrefixCache.request (emptyPython 100000) rs))
  have htotal' : (served sha256 cfg draws).totalRequests = 0 + rs.length := by
    rw [served, hrs]
    exact htotal
  have hhits' : (served sha256 cfg draws).cacheHits =
      0 + (serveAll PrefixCache.request (emptyPython 100000) rs).1.count true := by
    rw [served, hrs]
    exact hhits
  simp only [PrefixCache.stats]
  omega

/-- **The report of a served run.** -/
theorem report_ok (h : cfg.Valid) (hm : cfg.model.Representable)
    (hmax : cfg.prefixTokens ≤ maxSeqLen) :
    ∃ result, report cfg (served sha256 cfg draws).stats = .ok result ∧
      result.stats = (served sha256 cfg draws).stats ∧
      result.prefixTokens = cfg.prefixTokens := by
  obtain ⟨_, hmissesMin, hmissesMax⟩ := served_misses sha256 draws h
  have hcost : cfg.model.costUsd cfg.prefixTokens =
      .ok (cfg.model.flops cfg.prefixTokens / 1e12 / 312.0 / 3600.0 * 2.50) := by
    rw [ModelConfig.costUsd, ModelConfig.attentionTflops,
      ModelConfig.attentionFlops_ok hm h.prefixTokens_nonneg hmax]
    rfl
  have hrequests := h.numRequests
  have hday := h.requestsPerDay
  have hnum := toFloat_ok (lt_floatLimit (n := cfg.numRequests) (by omega))
  have hmisses := toFloat_ok (lt_floatLimit (n := (served sha256 cfg draws).stats.cacheMisses)
    (by omega))
  have hmonth := toFloat_ok (lt_floatLimit (n := cfg.requestsPerDay * 30) (by omega))
  have hne : cfg.numRequests ≠ 0 := by omega
  simp only [report, hcost, hnum, hmisses, hmonth, divInt, if_neg hne]
  exact ⟨_, rfl, rfl, rfl⟩

variable [DecidableLT F] [ToString F]

/-- A valid configuration passes every check before the loop. -/
theorem run_eq (hvalid : cfg.validate = .ok ()) :
    runRagSimulation sha256 cfg draws =
      ((List.range cfg.numRequests.toNat).foldlM
        (fun cache i => iterate sha256 cfg cache (draws i)) (emptyPython 100000) >>=
      fun cache => (report cfg cache.stats).mapError .raised) := by
  have h := cfg.validate_ok_iff.mp hvalid
  have hdocuments := h.numDocuments.1
  have htokens := h.tokensPerDoc.1
  have hstore : newDocumentStore cfg.numDocuments cfg.tokensPerDoc = .ok () := by
    rw [newDocumentStore, if_neg (by omega), if_neg (by omega)]
  have hcache : PrefixCache.init 100000 = .ok (emptyPython 100000) := Llm.init_ok (by decide)
  simp only [runRagSimulation, hvalid, hstore, hcache]
  rfl

/-- **A run succeeds**, and its statistics are those of the requests that were served. -/
theorem run_ok (hvalid : cfg.validate = .ok ()) (hm : cfg.model.Representable)
    (hmax : cfg.prefixTokens ≤ maxSeqLen)
    (hdraws : ∀ i < cfg.numRequests.toNat, Supplies cfg (draws i)) :
    ∃ result, runRagSimulation sha256 cfg draws = .ok result ∧
      result.stats = (served sha256 cfg draws).stats ∧
      result.prefixTokens = cfg.prefixTokens := by
  have h := cfg.validate_ok_iff.mp hvalid
  obtain ⟨result, hreport, hresult⟩ := report_ok sha256 draws h hm hmax
  refine ⟨result, ?_, hresult⟩
  rw [run_eq sha256 draws hvalid, iterations_ok hm h.prefixTokens_nonneg hmax _
    fun i hi => hdraws i (List.mem_range.mp hi)]
  show (report cfg (served sha256 cfg draws).stats).mapError Stop.raised = _
  rw [hreport]
  rfl

/-- A run whose entries cannot be made raises their error. -/
theorem run_error (hvalid : cfg.validate = .ok ()) {e : PyError}
    (he : cfg.model.attentionFlops cfg.prefixTokens = .error e)
    (hdraws : ∀ i < cfg.numRequests.toNat, Supplies cfg (draws i)) :
    runRagSimulation sha256 cfg draws = .error (.raised e) := by
  have hrequests := (cfg.validate_ok_iff.mp hvalid).numRequests.1
  have hsome : 0 < cfg.numRequests.toNat := by omega
  rw [run_eq sha256 draws hvalid, iterations_error he hsome (hdraws 0 hsome)]
  rfl

end Run

/-- **How a valid configuration runs**, with a sampler that supplies enough indices: it
completes exactly if the prefix is not longer than the cost functions accept and the sizes
of the model are floating-point numbers.  Otherwise the first request raises. -/
theorem rag_run_outcome {F : Type} [Zero F] [LT F] [DecidableLT F] [ToString F]
    (sha256 : Bytes → Vector UInt8 32) (cfg : RAGConfig F) (draws : Nat → List (List Int))
    (hvalid : cfg.validate = .ok ())
    (hdraws : ∀ i < cfg.numRequests.toNat, Supplies cfg (draws i)) :
    ((∃ result, runRagSimulation sha256 cfg draws = .ok result ∧
        result.prefixTokens = cfg.topK * cfg.tokensPerDoc + cfg.queryTokens) ↔
      cfg.topK * cfg.tokensPerDoc + cfg.queryTokens ≤ maxSeqLen ∧ cfg.model.Representable) ∧
    (maxSeqLen < cfg.topK * cfg.tokensPerDoc + cfg.queryTokens →
      runRagSimulation sha256 cfg draws = .error (.raised (.seqLenRangeError
        ("seq_len must be <= 1048576, got " ++
          toString (cfg.topK * cfg.tokensPerDoc + cfg.queryTokens))))) ∧
    (cfg.topK * cfg.tokensPerDoc + cfg.queryTokens ≤ maxSeqLen → ¬ cfg.model.Representable →
      runRagSimulation sha256 cfg draws =
        .error (.raised (.overflowError "int too large to convert to float"))) := by
  have hnonneg := (cfg.validate_ok_iff.mp hvalid).prefixTokens_nonneg
  have hlong (h : maxSeqLen < cfg.prefixTokens) :=
    run_error sha256 draws hvalid (ModelConfig.attentionFlops_long h) hdraws
  have hlarge (h : cfg.prefixTokens ≤ maxSeqLen) (hm : ¬ cfg.model.Representable) :=
    run_error sha256 draws hvalid (ModelConfig.attentionFlops_large hm hnonneg h) hdraws
  refine ⟨⟨?_, ?_⟩, hlong, hlarge⟩
  · intro ⟨result, hrun, _⟩
    by_cases hmax : cfg.prefixTokens ≤ maxSeqLen
    · refine ⟨hmax, Classical.byContradiction fun hm => ?_⟩
      rw [hlarge hmax hm] at hrun
      cases hrun
    · rw [hlong (Int.not_le.mp hmax)] at hrun
      cases hrun
  · intro ⟨hmax, hm⟩
    obtain ⟨result, hrun, _, hprefix⟩ := run_ok sha256 draws hvalid hm hmax hdraws
    exact ⟨result, hrun, hprefix⟩

/-- The default configuration completes. -/
theorem rag_run_outcome_default :
    ∃ result, runRagSimulation (fun _ => Vector.replicate 32 0) (defaultRagConfig (6 / 5 : ℚ))
        (fun _ => [[1, 4, 1000], [2, 2]]) = .ok result ∧
      result.prefixTokens = 3 * 512 + 64 :=
  have hvalid := defaultRagConfig_valid (by norm_num : (0 : ℚ) < 6 / 5)
  (rag_run_outcome _ _ _ (RAGConfig.validate_ok_iff _ |>.mpr hvalid) fun _ _ => by decide).1.mpr
    ⟨by decide, ModelConfig.representable_of_mem_allModels _ (by decide)⟩

/-- Two documents of a million tokens each. -/
def longPrefixConfig : RAGConfig ℚ :=
  { defaultRagConfig (6 / 5 : ℚ) with
    numDocuments := 2, tokensPerDoc := 1000000, topK := 2, queryTokens := 0 }

/-- The configuration is valid, and the run raises. -/
theorem valid_config_raises :
    longPrefixConfig.validate = .ok () ∧
      runRagSimulation (fun _ => Vector.replicate 32 0) longPrefixConfig (fun _ => [[1, 2]]) =
        .error (.raised (.seqLenRangeError "seq_len must be <= 1048576, got 2000000")) := by
  have hdefault := defaultRagConfig_valid (by norm_num : (0 : ℚ) < 6 / 5)
  have hvalid : longPrefixConfig.validate = .ok () := by
    refine (RAGConfig.validate_ok_iff _).mpr { hdefault with
      numDocuments := ?_, tokensPerDoc := ?_, topK := ?_, queryTokens := ?_ }
    all_goals decide
  exact ⟨hvalid, run_error _ _ hvalid
    (ModelConfig.attentionFlops_long (by decide)) fun _ _ => by decide⟩

end Llmsim.Rag
