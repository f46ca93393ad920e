import Ecco9.Gateway.RateLimiter
import Ecco9.Library.MachineInt
import Ecco9.Library.Runs
import Ecco9.Library.Sorting
import Ecco9.Library.Utf8
import Ecco9.Middleware.Breaker

/-! The router of `org/ecco9-llm-gateway/gateway`: backends in an order of preference, each behind a breaker
and a limiter, and statistics by the name of the provider. Costs are in exact arithmetic, and requests are
made one after another. -/

namespace Ecco9.LlmGateway

open Ecco9.Library Ecco9.Gateway Ecco9.Middleware

abbrev Provider : Type := Int

namespace Provider

def unspecified : Provider := 0
def openAI : Provider := 1
def anthropic : Provider := 2
def openRouter : Provider := 3
def featherless : Provider := 4
def localGGUF : Provider := 5

/-- `String()` -/
def name (p : Provider) : Text :=
  if p = openAI then ascii "openai"
  else if p = anthropic then ascii "anthropic"
  else if p = openRouter then ascii "openrouter"
  else if p = featherless then ascii "featherless"
  else if p = localGGUF then ascii "local_gguf"
  else ascii "unspecified"

end Provider

structure ChatMessage where
  role : Text
  content : Text

structure GenerateRequest where
  requestID : Text
  model : Text
  messages : List ChatMessage
  preferredProvider : Provider
  temperature : ℚ
  maxTokens : Int

structure GenerateResponse where
  requestID : Text
  content : Text
  providerUsed : Provider
  promptTokens : Int
  completionTokens : Int
  done : Bool

structure ChatCompletion where
  model : Text
  messages : List ChatMessage
  maxTokens : Int
  temperature : ℚ

structure Usage where
  promptTokens : Int
  completionTokens : Int

structure Backend where
  provider : Provider
  apiKey : Text
  baseURL : Text
  model : Text
  priority : Int
  costPer1KInput : ℚ
  costPer1KOutput : ℚ
  requestsPerMinute : Int

def Backend.endpoint (b : Backend) : Text :=
  if b.provider = Provider.anthropic then b.baseURL ++ ascii "/v1/messages"
  else b.baseURL ++ ascii "/v1/chat/completions"

/-- `errNoBackends` -/
def errNoBackends : Text := ascii "no LLM providers configured"

/-- Breakers and limiters of any kind; `Allow` is asked at a time of the clock. -/
structure Guards (B L : Type) where
  newCircuitBreaker : B
  breakerAllow : B → Nat → B × Bool
  recordSuccess : B → B
  recordFailure : B → Nat → B
  state : B → BreakerState
  newRateLimiter : Int → Nat → L
  limiterAllow : L → Nat → L × Bool

/-- Those of `breaker.go`; the clock has nanoseconds. -/
def guards : Guards CircuitBreaker RateLimiter where
  newCircuitBreaker := { failureThreshold := 5, resetTimeout := 30 * 10 ^ 9 }
  breakerAllow := CircuitBreaker.allow
  recordSuccess := CircuitBreaker.recordSuccess
  recordFailure := CircuitBreaker.recordFailure
  state := CircuitBreaker.state
  newRateLimiter requestsPerMinute now := newRateLimiter requestsPerMinute (now / 10 ^ 9)
  limiterAllow l now := l.allow (now / 10 ^ 9)

/-- What the gateway has from outside: the clock, and what its transports answer. -/
structure Outside (T σ : Type) where
  now : σ → Nat × σ
  complete : T → Text → Text → ChatCompletion → σ → Except Text (Text × Usage) × σ

structure ProviderStats where
  requests : Nat := 0
  successes : Nat := 0
  failures : Nat := 0
  totalLatency : Int := 0
  promptTokens : Int := 0
  completionTokens : Int := 0
  totalCostUSD : ℚ := 0
  lastUsed : Nat := 0
  lastError : Text := []

def costOf (b : Backend) (u : Usage) : ℚ :=
  u.promptTokens / 1000 * b.costPer1KInput + u.completionTokens / 1000 * b.costPer1KOutput

/-- What is recorded of a call. -/
def ProviderStats.record (st : ProviderStats) (b : Backend) (result : Except Text (Text × Usage))
    (latency : Int) (now : Nat) : ProviderStats :=
  let st := { st with
    requests := st.requests + 1
    totalLatency := st.totalLatency + latency
    lastUsed := now }
  match result with
  | .error e => { st with failures := st.failures + 1, lastError := e }
  | .ok (_, usage) => { st with
      successes := st.successes + 1
      promptTokens := st.promptTokens + usage.promptTokens
      completionTokens := st.completionTokens + usage.completionTokens
      totalCostUSD := st.totalCostUSD + costOf b usage }

/-- A backend, with how many were registered before it, for its pointer. -/
structure Registration where
  backend : Backend
  address : Nat

structure RegisteredProvider (B L T : Type) extends Registration where
  transport : T
  breaker : B
  limiter : L

structure Gateway (B L T : Type) where
  providers : List (RegisteredProvider B L T) := []
  current : Nat := 0
  /-- the map by the name of the provider -/
  stats : Text → Option ProviderStats := fun _ => none

/-- What the breakers, the limiters and the transports answer. -/
inductive Event
  | breaker (r : Registration) (allowed : Bool)
  | limiter (r : Registration) (allowed : Bool)
  | transport (r : Registration) (result : Except Text (Text × Usage))

/-- A gateway, what is outside, and what was answered so far. -/
structure Session (B L T σ : Type) where
  gateway : Gateway B L T := {}
  outside : σ
  log : List Event := []

variable {B L T σ : Type}

/-- Candidates for a request: the preferred provider first, then all others by priority. -/
def providerOrder (all : List (RegisteredProvider B L T)) (preferred : Provider) :
    List (RegisteredProvider B L T) :=
  let sorted := bubbleSort (fun p => p.backend.priority) all
  if preferred = Provider.unspecified then sorted
  else (sorted.filter fun p => p.backend.provider = preferred) ++
    sorted.filter fun p => p.backend.provider ≠ preferred

def indexOf (all : List (RegisteredProvider B L T)) (rp : RegisteredProvider B L T) : Nat :=
  (all.findIdx? fun p => p.address = rp.address).getD 0

namespace Gateway

variable (g : Gateway B L T)

def registrations : List Registration := g.providers.map RegisteredProvider.toRegistration

/-- What is now behind a pointer. -/
def deref (rp : RegisteredProvider B L T) : RegisteredProvider B L T :=
  (g.providers.find? fun p => p.address = rp.address).getD rp

def setBreaker (rp : RegisteredProvider B L T) (breaker : B) : Gateway B L T :=
  { g with providers := g.providers.map fun p => if p.address = rp.address then { p with breaker } else p }

def setLimiter (rp : RegisteredProvider B L T) (limiter : L) : Gateway B L T :=
  { g with providers := g.providers.map fun p => if p.address = rp.address then { p with limiter } else p }

def setStats (name : Text) (st : ProviderStats) : Gateway B L T :=
  { g with stats := fun n => if n = name then some st else g.stats n }

/-- Nobody asks a provider whose name has no statistics. -/
def record (rp : RegisteredProvider B L T) (result : Except Text (Text × Usage)) (latency : Int)
    (now : Nat) : Gateway B L T :=
  match g.stats rp.backend.provider.name with
  | some st => g.setStats rp.backend.provider.name (st.record rp.backend result latency now)
  | none => g

def currentProvider : Text :=
  match g.providers[g.current]? with
  | some p => p.backend.provider.name
  | none => ascii "none"

end Gateway

/-! ### The calls -/

namespace Session

variable (G : Guards B L) (W : Outside T σ) (s : Session B L T σ)

/-- `r.breaker.Allow()` -/
def breakerAllow (rp : RegisteredProvider B L T) : Bool × Session B L T σ :=
  let (now, outside) := W.now s.outside
  let (breaker, allowed) := G.breakerAllow (s.gateway.deref rp).breaker now
  (allowed, ⟨s.gateway.setBreaker rp breaker, outside, s.log ++ [.breaker rp.toRegistration allowed]⟩)

/-- `r.limiter.Allow()` -/
def limiterAllow (rp : RegisteredProvider B L T) : Bool × Session B L T σ :=
  let (now, outside) := W.now s.outside
  let (limiter, allowed) := G.limiterAllow (s.gateway.deref rp).limiter now
  (allowed, ⟨s.gateway.setLimiter rp limiter, outside, s.log ++ [.limiter rp.toRegistration allowed]⟩)

def available (rp : RegisteredProvider B L T) : Bool × Session B L T σ :=
  match s.breakerAllow G W rp with
  | (true, s) => s.limiterAllow G W rp
  | (false, s) => (false, s)

/-- The call of the transport, with what it is recorded in. -/
def request (rp : RegisteredProvider B L T) (req : GenerateRequest) :
    Except Text (Text × Usage) × Session B L T σ :=
  let model := if req.model = [] then rp.backend.model else req.model
  let cc : ChatCompletion := ⟨model, req.messages, req.maxTokens, req.temperature⟩
  let (start, outside) := W.now s.outside
  let (result, outside) := W.complete rp.transport rp.backend.endpoint rp.backend.apiKey cc outside
  let (stop, outside) := W.now outside
  let (used, outside) := W.now outside
  (result, ⟨s.gateway.record rp result ((stop : Int) - start) used, outside,
    s.log ++ [.transport rp.toRegistration result]⟩)

/-- What the breaker is told. -/
def report (rp : RegisteredProvider B L T) : Except Text (Text × Usage) → Session B L T σ
  | .error _ =>
    let (now, outside) := W.now s.outside
    { s with
      gateway := s.gateway.setBreaker rp (G.recordFailure (s.gateway.deref rp).breaker now)
      outside }
  | .ok _ =>
    { s with gateway := s.gateway.setBreaker rp (G.recordSuccess (s.gateway.deref rp).breaker) }

def complete (rp : RegisteredProvider B L T) (req : GenerateRequest) :
    Except Text (Text × Usage) × Session B L T σ :=
  let (result, s) := s.request W rp req
  (result, s.report G W rp result)

/-- The loop of `Generate` over the candidates. -/
def tryAll (req : GenerateRequest) : List (RegisteredProvider B L T) → Option Text → Session B L T σ →
    Except Text GenerateResponse × Session B L T σ
  | [], lastErr, s => (.error (lastErr.getD (ascii "all LLM providers failed or unavailable")), s)
  | rp :: order, lastErr, s =>
    match s.available G W rp with
    | (false, s) => tryAll req order lastErr s
    | (true, s) =>
      match s.complete G W rp req with
      | (.error e, s) => tryAll req order (some e) s
      | (.ok (content, usage), s) =>
        let idx := indexOf s.gateway.providers rp
        let gateway := if idx ≠ s.gateway.current then { s.gateway with current := idx } else s.gateway
        (.ok { requestID := req.requestID
               content
               providerUsed := rp.backend.provider
               promptTokens := wrap32 usage.promptTokens
               completionTokens := wrap32 usage.completionTokens
               done := true },
          { s with gateway })

def generate (req : GenerateRequest) : Except Text GenerateResponse × Session B L T σ :=
  if s.gateway.providers = [] then (.error errNoBackends, s)
  else tryAll G W req (providerOrder s.gateway.providers req.preferredProvider) none s

def register (b : Backend) (t : T) : Session B L T σ :=
  let (now, outside) := W.now s.outside
  let rp : RegisteredProvider B L T :=
    { backend := b
      address := s.gateway.providers.length
      transport := t
      breaker := G.newCircuitBreaker
      limiter := G.newRateLimiter b.requestsPerMinute now }
  { s with
    gateway := { s.gateway with providers := s.gateway.providers ++ [rp] }.setStats b.provider.name {}
    outside }

/-- `New` -/
def newGateway (backends : List Backend) (t : T) (outside : σ) : Except Text (Session B L T σ) :=
  if backends = [] then .error errNoBackends
  else .ok (backends.foldl (fun s b => s.register G W b t) { outside })

end Session

/-- `String()` -/
def stateName : BreakerState → Text
  | .stateClosed => ascii "closed"
  | .stateOpen => ascii "open"
  | .stateHalfOpen => ascii "half-open"

structure Snapshot where
  stats : ProviderStats
  avgLatencyMs : ℚ
  circuit : Option Text

/-- `Stats`, by the name of the provider; the breaker is that of its last backend. -/
def Gateway.statistics (G : Guards B L) (g : Gateway B L T) (name : Text) : Option Snapshot :=
  (g.stats name).map fun st =>
    { stats := st
      avgLatencyMs := if st.requests > 0 then (st.totalLatency.tdiv (10 ^ 6) : ℚ) / st.requests else 0
      circuit := (g.providers.filter fun p => p.backend.provider.name = name).getLast?.map
        fun p => stateName (G.state p.breaker) }

/-! ### Runs -/

inductive Call (T : Type)
  | register (b : Backend) (t : T)
  | generate (req : GenerateRequest)

/-- What comes of asking one backend. -/
inductive Visit
  | broken (r : Registration)
  | limited (r : Registration)
  | failed (r : Registration) (e : Text)
  | answered (r : Registration) (content : Text) (usage : Usage)

namespace Visit

def registration : Visit → Registration
  | broken r | limited r | failed r _ | answered r _ _ => r

/-- A transport is called if and only if the breaker and the limiter of the backend let it. -/
def events : Visit → List Event
  | broken r => [.breaker r false]
  | limited r => [.breaker r true, .limiter r false]
  | failed r e => [.breaker r true, .limiter r true, .transport r (.error e)]
  | answered r content usage => [.breaker r true, .limiter r true, .transport r (.ok (content, usage))]

def Answered : Visit → Prop
  | answered .. => True
  | _ => False

end Visit

/-- The preferred provider comes first, then the higher priority, then what was registered before. -/
def Before (preferred : Provider) (p q : Registration) : Prop :=
  let first (r : Registration) : Prop := preferred ≠ Provider.unspecified ∧ r.backend.provider = preferred
  first p ∧ ¬first q ∨
    (first p ↔ first q) ∧ (q.backend.priority < p.backend.priority ∨
      q.backend.priority = p.backend.priority ∧ p.address < q.address)

/-- How the visits end: with the first backend that answers, or with none. -/
def Ends (order : List Registration) (visits : List Visit)
    (r : Except Text GenerateResponse × Session B L T σ) : Prop :=
  match r.1 with
  | .error _ => visits.map Visit.registration = order ∧ ∀ v ∈ visits, ¬v.Answered
  | .ok response => ∃ before b content usage, visits = before ++ [.answered b content usage] ∧
      (∀ v ∈ before, ¬v.Answered) ∧ visits.map Visit.registration <+: order ∧
      response.content = content ∧ r.2.gateway.currentProvider = b.backend.provider.name

/-- How a request is routed: the backends are visited in their order, each once, and until one answers. -/
def Routed (s : Session B L T σ) (req : GenerateRequest)
    (r : Except Text GenerateResponse × Session B L T σ) : Prop :=
  ∃ (order : List Registration) (visits : List Visit),
    order.Perm s.gateway.registrations ∧ order.Pairwise (Before req.preferredProvider) ∧
    (order.map Registration.address).Nodup ∧
    r.2.log = s.log ++ visits.flatMap Visit.events ∧ Ends order visits r

/-- A call of a transport for a provider of the name. -/
def Event.of (name : Text) : Event → Bool
  | .transport r _ => r.backend.provider.name = name
  | _ => false

def Event.succeeded : Event → Bool
  | .transport _ (.ok _) => true
  | _ => false

def Event.failed : Event → Bool
  | .transport _ (.error _) => true
  | _ => false

namespace Session

variable (G : Guards B L) (W : Outside T σ)

def call (s : Session B L T σ) : Call T → Session B L T σ
  | .register b t => s.register G W b t
  | .generate req => (s.generate G W req).2

def Routes (s : Session B L T σ) : Call T → Prop
  | .register .. => True
  | .generate req => Routed s req (s.generate G W req)

/-- What is reported of a name is what there was of calls. -/
def Accounted (s : Session B L T σ) : Prop :=
  ∀ name, match s.gateway.statistics G name with
    | none => ∀ e ∈ s.log, e.of name = false
    | some snapshot =>
      snapshot.stats.requests = s.log.countP (Event.of name) ∧
      snapshot.stats.successes = s.log.countP (fun e => e.of name && e.succeeded) ∧
      snapshot.stats.failures = s.log.countP (fun e => e.of name && e.failed)

/-- No backend is registered of a provider that was called before. -/
def Fresh (s : Session B L T σ) : Call T → Prop
  | .register b _ => ∀ e ∈ s.log, e.of b.provider.name = false
  | .generate _ => True

end Session

/-! ### The order of the candidates -/

theorem providerOrder_perm (all : List (RegisteredProvider B L T)) (preferred : Provider) :
    (providerOrder all preferred).Perm all := by
  rw [providerOrder]
  split_ifs
  · exact bubbleSort_perm _ all
  · refine List.Perm.trans ?_ (bubbleSort_perm (fun p => p.backend.priority) all)
    simpa using List.filter_append_perm (fun p => decide (p.backend.provider = preferred))
      (bubbleSort (fun p => p.backend.priority) all)

theorem providerOrder_ordered {all : List (RegisteredProvider B L T)}
    (h : all.Pairwise fun p q => p.address < q.address) (preferred : Provider) :
    (providerOrder all preferred).Pairwise
      fun p q => Before preferred p.toRegistration q.toRegistration := by
  have stable := bubbleSort_stable (fun p : RegisteredProvider B L T => p.backend.priority) h
  rw [providerOrder]
  split_ifs with hpreferred
  · refine stable.imp fun {p q} hpq => .inr ⟨?_, hpq⟩
    simp [hpreferred]
  · refine List.pairwise_append.mpr ⟨?_, ?_, fun p hp q hq => .inl ?_⟩
    · refine (stable.filter _).imp_of_mem fun {p q} hp hq hpq => .inr ⟨?_, hpq⟩
      rw [List.mem_filter, decide_eq_true_eq] at hp hq
      simp [hp.2, hq.2]
    · refine (stable.filter _).imp_of_mem fun {p q} hp hq hpq => .inr ⟨?_, hpq⟩
      rw [List.mem_filter, decide_eq_true_eq] at hp hq
      simp [hp.2, hq.2]
    · rw [List.mem_filter, decide_eq_true_eq] at hp hq
      exact ⟨⟨hpreferred, hp.2⟩, fun h => hq.2 h.2⟩

/-! ### What a call does -/

namespace Gateway

variable {g : Gateway B L T} {rp : RegisteredProvider B L T}

@[simp] theorem registrations_setBreaker (breaker : B) :
    (g.setBreaker rp breaker).registrations = g.registrations := by
  simp only [registrations, setBreaker, List.map_map]
  refine List.map_congr_left fun p _ => ?_
  dsimp only [Function.comp]
  split_ifs <;> rfl

@[simp] theorem registrations_setLimiter (limiter : L) :
    (g.setLimiter rp limiter).registrations = g.registrations := by
  simp only [registrations, setLimiter, List.map_map]
  refine List.map_congr_left fun p _ => ?_
  dsimp only [Function.comp]
  split_ifs <;> rfl

@[simp] theorem registrations_setStats (name : Text) (st : ProviderStats) :
    (g.setStats name st).registrations = g.registrations := rfl

@[simp] theorem stats_setBreaker (breaker : B) : (g.setBreaker rp breaker).stats = g.stats := rfl

@[simp] theorem stats_setLimiter (limiter : L) : (g.setLimiter rp limiter).stats = g.stats := rfl

theorem registrations_record (result : Except Text (Text × Usage)) (latency : Int) (now : Nat) :
    (g.record rp result latency now).registrations = g.registrations := by
  rw [record]
  cases g.stats rp.backend.provider.name <;> rfl

theorem stats_record (result : Except Text (Text × Usage)) (latency : Int) (now : Nat) (name : Text) :
    (g.record rp result latency now).stats name =
      if name = rp.backend.provider.name then
        (g.stats name).map fun st => st.record rp.backend result latency now
      else g.stats name := by
  rw [record]
  cases hst : g.stats rp.backend.provider.name with
  | none =>
    dsimp only
    split_ifs with h
    · rw [h, hst]
      rfl
    · rfl
  | some st =>
    dsimp only [setStats]
    split_ifs with h
    · rw [h, hst]
      rfl
    · rfl

theorem setCurrent (idx : Nat) :
    (if idx ≠ g.current then { g with current := idx } else g) = { g with current := idx } := by
  split_ifs with h
  · rfl
  · rw [not_not.mp h]

/-- The index of a provider is where it was registered. -/
theorem providers_indexOf (nodup : (g.registrations.map Registration.address).Nodup)
    (h : rp.toRegistration ∈ g.registrations) :
    ∃ p, g.providers[indexOf g.providers rp]? = some p ∧ p.toRegistration = rp.toRegistration := by
  obtain ⟨p, hp, heq⟩ := List.mem_map.mp h
  rw [indexOf]
  cases hfind : g.providers.findIdx? fun p => p.address = rp.address with
  | none =>
    rw [List.findIdx?_eq_none_iff] at hfind
    have := hfind p hp
    rw [decide_eq_false_iff_not] at this
    exact absurd (congrArg Registration.address heq) this
  | some i =>
    obtain ⟨hi, haddress, -⟩ := List.findIdx?_eq_some_iff_getElem.mp hfind
    rw [decide_eq_true_eq] at haddress
    refine ⟨g.providers[i], List.getElem?_eq_getElem hi, ?_⟩
    exact List.inj_on_of_nodup_map nodup (List.mem_map_of_mem (List.getElem_mem hi)) h haddress

end Gateway

theorem Ends.cons {order : List Registration} {visits : List Visit}
    {r : Except Text GenerateResponse × Session B L T σ} (h : Ends order visits r) {v : Visit}
    {b : Registration} (hv : v.registration = b) (hnot : ¬v.Answered) :
    Ends (b :: order) (v :: visits) r := by
  have hfirst {l : List Visit} (h : ∀ w ∈ l, ¬w.Answered) : ∀ w ∈ v :: l, ¬w.Answered := by
    intro w hw
    rcases List.mem_cons.mp hw with rfl | hw
    · exact hnot
    · exact h w hw
  rw [Ends] at h ⊢
  cases hr : r.1 with
  | error e =>
    rw [hr] at h
    exact ⟨by rw [List.map_cons, hv, h.1], hfirst h.2⟩
  | ok response =>
    rw [hr] at h
    obtain ⟨before, c, content, usage, rfl, hbefore, hpre, hrest⟩ := h
    refine ⟨v :: before, c, content, usage, rfl, hfirst hbefore, ?_, hrest⟩
    rw [List.map_cons, hv]
    exact (List.prefix_cons_inj _).mpr hpre

theorem Ends.visited {order : List Registration} {visits : List Visit}
    {r : Except Text GenerateResponse × Session B L T σ} (h : Ends order visits r) :
    visits.map Visit.registration <+: order := by
  rw [Ends] at h
  cases hr : r.1 with
  | error e =>
    rw [hr] at h
    exact h.1 ▸ List.prefix_refl _
  | ok response =>
    rw [hr] at h
    obtain ⟨-, -, -, -, -, -, hpre, -⟩ := h
    exact hpre

/-- What a stretch of a run does: its events are logged, and recorded under the names that are known. -/
structure Goes (s s' : Session B L T σ) (es : List Event) : Prop where
  log : s'.log = s.log ++ es
  registrations : s'.gateway.registrations = s.gateway.registrations
  unknown : ∀ name, s.gateway.stats name = none → s'.gateway.stats name = none
  known : ∀ name st, s.gateway.stats name = some st → ∃ st', s'.gateway.stats name = some st' ∧
    st'.requests = st.requests + es.countP (Event.of name) ∧
    st'.successes = st.successes + es.countP (fun e => e.of name && e.succeeded) ∧
    st'.failures = st.failures + es.countP (fun e => e.of name && e.failed)

namespace Goes

variable {s s' s'' : Session B L T σ} {es es' : List Event}

theorem refl (s : Session B L T σ) : Goes s s [] :=
  ⟨(List.append_nil _).symm, rfl, fun _ h => h, fun _ st h => ⟨st, h, rfl, rfl, rfl⟩⟩

theorem trans (h : Goes s s' es) (h' : Goes s' s'' es') : Goes s s'' (es ++ es') where
  log := by rw [h'.log, h.log, List.append_assoc]
  registrations := h'.registrations.trans h.registrations
  unknown name hnone := h'.unknown name (h.unknown name hnone)
  known name st hst := by
    obtain ⟨st', hst', requests, successes, failures⟩ := h.known name st hst
    obtain ⟨st'', hst'', requests', successes', failures'⟩ := h'.known name st' hst'
    refine ⟨st'', hst'', ?_, ?_, ?_⟩
    · rw [requests', requests, List.countP_append, Nat.add_assoc]
    · rw [successes', successes, List.countP_append, Nat.add_assoc]
    · rw [failures', failures, List.countP_append, Nat.add_assoc]

/-- Asking a breaker or a limiter is in no statistics. -/
theorem of_guards (log : s'.log = s.log ++ es)
    (registrations : s'.gateway.registrations = s.gateway.registrations)
    (stats : s'.gateway.stats = s.gateway.stats) (h : ∀ e ∈ es, ∀ name, e.of name = false) :
    Goes s s' es where
  log := log
  registrations := registrations
  unknown name hnone := by rwa [stats]
  known name st hst := by
    refine ⟨st, by rwa [stats], ?_, ?_, ?_⟩ <;>
    · rw [List.countP_eq_zero.mpr fun e he => by simp [h e he name], Nat.add_zero]

/-- One more call is recorded with its outcome, under the name of the provider. -/
theorem of_record (s : Session B L T σ) (rp : RegisteredProvider B L T)
    (result : Except Text (Text × Usage)) (latency : Int) (now : Nat) (outside : σ) :
    Goes s ⟨s.gateway.record rp result latency now, outside, s.log ++ [.transport rp.toRegistration result]⟩
      [.transport rp.toRegistration result] where
  log := rfl
  registrations := Gateway.registrations_record result latency now
  unknown name hnone := by
    refine (Gateway.stats_record result latency now name).trans ?_
    rw [hnone]
    split_ifs <;> rfl
  known name st hst := by
    rw [Gateway.stats_record, hst]
    split_ifs with h
    · refine ⟨_, rfl, ?_⟩
      cases result <;> simp [ProviderStats.record, Event.of, Event.succeeded, Event.failed, h]
    · have := Ne.symm h
      exact ⟨st, rfl, by simp [Event.of, this], by simp [Event.of, this], by simp [Event.of, this]⟩

end Goes

namespace Session

variable (G : Guards B L) (W : Outside T σ) (s : Session B L T σ)

theorem breakerAllow_spec (rp : RegisteredProvider B L T) :
    Goes s (s.breakerAllow G W rp).2 [.breaker rp.toRegistration (s.breakerAllow G W rp).1] :=
  .of_guards rfl (by simp [breakerAllow]) rfl (by simp [Event.of])

theorem limiterAllow_spec (rp : RegisteredProvider B L T) :
    Goes s (s.limiterAllow G W rp).2 [.limiter rp.toRegistration (s.limiterAllow G W rp).1] :=
  .of_guards rfl (by simp [limiterAllow]) rfl (by simp [Event.of])

/-- Either the backend is let, or it is refused by one of the two. -/
theorem available_spec (rp : RegisteredProvider B L T) :
    (s.available G W rp).1 = true ∧ Goes s (s.available G W rp).2
        [.breaker rp.toRegistration true, .limiter rp.toRegistration true] ∨
      (s.available G W rp).1 = false ∧ ∃ v : Visit, v.registration = rp.toRegistration ∧ ¬v.Answered ∧
        Goes s (s.available G W rp).2 v.events := by
  have hbreaker := s.breakerAllow_spec G W rp
  rw [available]
  generalize s.breakerAllow G W rp = r at hbreaker ⊢
  obtain ⟨allowed, s'⟩ := r
  cases allowed with
  | false => exact .inr ⟨rfl, .broken rp.toRegistration, rfl, id, hbreaker⟩
  | true =>
    have hlimiter := s'.limiterAllow_spec G W rp
    dsimp only at hbreaker ⊢
    generalize s'.limiterAllow G W rp = r at hlimiter ⊢
    obtain ⟨allowed, s''⟩ := r
    cases allowed with
    | false => exact .inr ⟨rfl, .limited rp.toRegistration, rfl, id, hbreaker.trans hlimiter⟩
    | true => exact .inl ⟨rfl, hbreaker.trans hlimiter⟩

theorem request_spec (rp : RegisteredProvider B L T) (req : GenerateRequest) :
    Goes s (s.request W rp req).2 [.transport rp.toRegistration (s.request W rp req).1] :=
  .of_record s rp _ _ _ _

theorem report_spec (rp : RegisteredProvider B L T) (result : Except Text (Text × Usage)) :
    Goes s (s.report G W rp result) [] := by
  cases result with
  | error e => exact .of_guards (List.append_nil _).symm (by simp [report]) rfl nofun
  | ok answer => exact .of_guards (List.append_nil _).symm (by simp [report]) rfl nofun

theorem complete_spec (rp : RegisteredProvider B L T) (req : GenerateRequest) :
    Goes s (s.complete G W rp req).2 [.transport rp.toRegistration (s.complete G W rp req).1] :=
  (s.request_spec W rp req).trans (report_spec G W _ rp _)

/-- Candidates are visited one after the other until one answers. -/
theorem tryAll_spec (req : GenerateRequest) {order : List (RegisteredProvider B L T)}
    (lastErr : Option Text) {s : Session B L T σ}
    (nodup : (s.gateway.registrations.map Registration.address).Nodup)
    (registered : ∀ rp ∈ order, rp.toRegistration ∈ s.gateway.registrations) :
    ∃ visits : List Visit, Goes s (tryAll G W req order lastErr s).2 (visits.flatMap Visit.events) ∧
      Ends (order.map RegisteredProvider.toRegistration) visits (tryAll G W req order lastErr s) := by
  induction order generalizing s lastErr with
  | nil => exact ⟨[], .refl s, rfl, nofun⟩
  | cons rp order ih =>
    have later {v : Visit} {s' : Session B L T σ} (lastErr : Option Text)
        (hv : v.registration = rp.toRegistration) (hnot : ¬v.Answered) (goes : Goes s s' v.events) :
        ∃ visits : List Visit, Goes s (tryAll G W req order lastErr s').2 (visits.flatMap Visit.events) ∧
          Ends ((rp :: order).map RegisteredProvider.toRegistration) visits
            (tryAll G W req order lastErr s') := by
      obtain ⟨visits, hgoes, hends⟩ := ih lastErr (s := s') (by rwa [goes.registrations]) fun p hp => by
        rw [goes.registrations]
        exact registered p (List.mem_cons_of_mem _ hp)
      exact ⟨v :: visits, goes.trans hgoes, List.map_cons ▸ hends.cons hv hnot⟩
    have havailable := s.available_spec G W rp
    rw [tryAll]
    generalize s.available G W rp = r at havailable ⊢
    obtain ⟨allowed, s'⟩ := r
    rcases havailable with ⟨rfl, goes⟩ | ⟨rfl, v, hv, hnot, goes⟩
    · have hcomplete := s'.complete_spec G W rp req
      dsimp only at goes ⊢
      generalize s'.complete G W rp req = r at hcomplete ⊢
      obtain ⟨result, s''⟩ := r
      cases result with
      | error e => exact later (v := .failed rp.toRegistration e) _ rfl id (goes.trans hcomplete)
      | ok answer =>
        obtain ⟨content, usage⟩ := answer
        have goes := goes.trans hcomplete
        dsimp only
        rw [Gateway.setCurrent]
        refine ⟨[.answered rp.toRegistration content usage], ⟨goes.log, goes.registrations, goes.unknown,
          goes.known⟩, [], rp.toRegistration, content, usage, rfl, nofun, ⟨_, rfl⟩, rfl, ?_⟩
        have hnodup : (s''.gateway.registrations.map Registration.address).Nodup := by
          rwa [goes.registrations]
        have hmem : rp.toRegistration ∈ s''.gateway.registrations := by
          rw [goes.registrations]
          exact registered rp List.mem_cons_self
        obtain ⟨p, hp, heq⟩ := Gateway.providers_indexOf hnodup hmem
        dsimp only [Gateway.currentProvider]
        rw [hp, ← heq]
    · exact later lastErr hv hnot goes

/-! ### Whole runs -/

/-- What holds of every run. -/
structure Sound (s : Session B L T σ) : Prop where
  addresses : s.gateway.registrations.map Registration.address =
    List.range s.gateway.registrations.length
  known : ∀ r ∈ s.gateway.registrations, ∃ st, s.gateway.stats r.backend.provider.name = some st

variable {G W} {s : Session B L T σ}

theorem sound_empty {outside : σ} : Sound ({ outside } : Session B L T σ) := ⟨rfl, nofun⟩

theorem accounted_iff : s.Accounted G ↔ ∀ name, match s.gateway.stats name with
    | none => ∀ e ∈ s.log, e.of name = false
    | some st => st.requests = s.log.countP (Event.of name) ∧
        st.successes = s.log.countP (fun e => e.of name && e.succeeded) ∧
        st.failures = s.log.countP (fun e => e.of name && e.failed) := by
  refine forall_congr' fun name => ?_
  rw [Gateway.statistics]
  cases s.gateway.stats name <;> rfl

theorem accounted_empty {outside : σ} : Accounted G ({ outside } : Session B L T σ) :=
  accounted_iff.mpr fun _ => nofun

theorem Sound.of_goes {s' : Session B L T σ} {es : List Event} (h : s.Sound) (goes : Goes s s' es) :
    s'.Sound where
  addresses := by rw [goes.registrations, h.addresses]
  known r hr := by
    obtain ⟨st, hst⟩ := h.known r (goes.registrations ▸ hr)
    obtain ⟨st', hst', -⟩ := goes.known _ st hst
    exact ⟨st', hst'⟩

theorem mem_visit {v : Visit} {e : Event} (h : e ∈ v.events) {name : Text} (hof : e.of name = true) :
    v.registration.backend.provider.name = name := by
  cases v <;> simp only [Visit.events, List.mem_cons, List.not_mem_nil, or_false] at h <;>
    rcases h with rfl | rfl | rfl <;> simp_all [Event.of, Visit.registration]

theorem Accounted.of_goes {s' : Session B L T σ} {visits : List Visit} (h : s.Accounted G)
    (sound : s.Sound) (goes : Goes s s' (visits.flatMap Visit.events))
    (registered : ∀ v ∈ visits, v.registration ∈ s.gateway.registrations) : s'.Accounted G := by
  rw [accounted_iff] at h ⊢
  intro name
  have h := h name
  cases hst : s.gateway.stats name with
  | none =>
    rw [hst] at h
    rw [goes.unknown name hst, goes.log]
    intro e he
    rcases List.mem_append.mp he with he | he
    · exact h e he
    · obtain ⟨v, hv, he⟩ := List.mem_flatMap.mp he
      obtain ⟨st, hsome⟩ := sound.known _ (registered v hv)
      refine Bool.eq_false_iff.mpr fun hof => ?_
      rw [mem_visit he hof, hst] at hsome
      cases hsome
  | some st =>
    rw [hst] at h
    obtain ⟨st', hst', requests, successes, failures⟩ := goes.known name st hst
    rw [hst', goes.log]
    simp only [List.countP_append]
    exact ⟨by rw [requests, h.1], by rw [successes, h.2.1], by rw [failures, h.2.2]⟩

/-- A request is routed, and what it does is recorded. -/
theorem Sound.generate (h : s.Sound) (req : GenerateRequest) :
    Routed s req (s.generate G W req) ∧ (s.generate G W req).2.Sound ∧
      (s.Accounted G → (s.generate G W req).2.Accounted G) := by
  have nodup : (s.gateway.registrations.map Registration.address).Nodup :=
    h.addresses ▸ List.nodup_range
  have increasing : s.gateway.providers.Pairwise fun p q => p.address < q.address := by
    have := h.addresses ▸ List.pairwise_lt_range
    rw [Gateway.registrations, List.pairwise_map, List.pairwise_map] at this
    exact this
  have perm : ((providerOrder s.gateway.providers req.preferredProvider).map
      RegisteredProvider.toRegistration).Perm s.gateway.registrations :=
    (providerOrder_perm s.gateway.providers req.preferredProvider).map _
  have ordered := List.pairwise_map.mpr (providerOrder_ordered increasing req.preferredProvider)
  obtain ⟨visits, goes, ends⟩ : ∃ visits : List Visit,
      Goes s (s.generate G W req).2 (visits.flatMap Visit.events) ∧
      Ends ((providerOrder s.gateway.providers req.preferredProvider).map
        RegisteredProvider.toRegistration) visits (s.generate G W req) := by
    rw [Session.generate]
    split_ifs with hnone
    · refine ⟨[], .refl s, ?_, nofun⟩
      rw [hnone, (providerOrder_perm _ _).eq_nil]
      rfl
    · exact tryAll_spec G W req none nodup fun rp hrp => perm.subset (List.mem_map_of_mem hrp)
  refine ⟨⟨_, visits, perm, ordered, (perm.map _).nodup_iff.mpr nodup, goes.log, ends⟩, h.of_goes goes,
    fun haccounted => haccounted.of_goes h goes fun v hv => ?_⟩
  exact perm.subset (ends.visited.subset (List.mem_map_of_mem hv))

theorem Sound.call (h : s.Sound) (c : Call T) : (s.call G W c).Sound := by
  cases c with
  | generate req => exact (h.generate req).2.1
  | register b t =>
    have hregistrations : (s.call G W (.register b t)).gateway.registrations =
        s.gateway.registrations ++ [⟨b, s.gateway.registrations.length⟩] := by
      simp [Session.call, register, Gateway.registrations, Gateway.setStats]
    refine ⟨?_, fun r hr => ?_⟩
    · rw [hregistrations, List.map_append, h.addresses, List.length_append, List.length_singleton,
        List.range_succ]
      rfl
    · dsimp only [Session.call, register, Gateway.setStats]
      split_ifs with hname
      · exact ⟨_, rfl⟩
      · rw [hregistrations] at hr
        rcases List.mem_append.mp hr with hr | hr
        · exact h.known r hr
        · rw [List.mem_singleton.mp hr] at hname
          exact absurd rfl hname

/-- A call keeps the accounts if and only if it does not register a provider that was called before. -/
theorem Accounted.call_iff (sound : s.Sound) (h : s.Accounted G) (c : Call T) :
    (s.call G W c).Accounted G ↔ s.Fresh c := by
  cases c with
  | generate req => exact ⟨fun _ => trivial, fun _ => (sound.generate req).2.2 h⟩
  | register b t =>
    rw [accounted_iff] at h ⊢
    dsimp only [Session.call, register, Gateway.setStats]
    constructor
    · intro haccounted
      have := haccounted b.provider.name
      rw [if_pos rfl] at this
      intro e he
      simpa using List.countP_eq_zero.mp this.1.symm e he
    · intro fresh name
      split_ifs with hname
      · have hnone : ∀ e ∈ s.log, e.of name = false := hname ▸ fresh
        refine ⟨?_, ?_, ?_⟩ <;>
        · refine (List.countP_eq_zero.mpr fun e he => ?_).symm
          simp [hnone e he]
      · exact h name

/-- Requests are routed in every run; what is reported of the providers is right in every state of it if
and only if no provider is registered again that was called before. -/
theorem run_routed (G : Guards B L) (W : Outside T σ) (outside : σ) (calls : List (Call T)) :
    (Along (call G W) (Routes G W) { outside } calls ∧
      ∀ n, ((calls.take n).foldl (call G W) { outside }).Accounted G) ↔
      Along (call G W) Fresh { outside } calls := by
  have routes : Along (call G W) (Routes G W) { outside } calls := by
    refine along_of (I := Sound) (fun _ c h => h.call c) (fun s c h => ?_) sound_empty calls
    cases c with
    | register => trivial
    | generate req => exact (h.generate req).1
  rw [and_iff_right routes, ← along_iff (I := fun s => s.Sound ∧ s.Accounted G)
    (fun s c h => ⟨fun hc => (Accounted.call_iff h.1 h.2 c).mp hc.2,
      fun hc => ⟨h.1.call c, (Accounted.call_iff h.1 h.2 c).mpr hc⟩⟩) ⟨sound_empty, accounted_empty⟩]
  have sound (n : Nat) : ((calls.take n).foldl (call G W) { outside }).Sound :=
    List.foldlRecOn (calls.take n) (call G W) sound_empty fun _ h c _ => h.call c
  exact forall_congr' fun n => ⟨fun h => ⟨sound n, h⟩, fun h => h.2⟩

/-- What `New` makes is what the empty gateway comes to by registering one backend after the other. -/
theorem newGateway_eq {backends : List Backend} (h : backends ≠ []) (t : T) (outside : σ) :
    newGateway G W backends t outside =
      .ok ((backends.map fun b => Call.register b t).foldl (call G W) { outside }) := by
  rw [newGateway, if_neg h, List.foldl_map]
  rfl

/-- A clock that stands still, and a transport that always answers. -/
def answering : Outside Unit Unit where
  now _ := (0, ())
  complete _ _ _ _ _ := (.ok (ascii "answer", ⟨0, 0⟩), ())

def oneBackend : Backend where
  provider := Provider.openAI
  apiKey := []
  baseURL := []
  model := []
  priority := 70
  costPer1KInput := 0
  costPer1KOutput := 0
  requestsPerMinute := 0

def anyRequest : GenerateRequest where
  requestID := []
  model := []
  messages := []
  preferredProvider := Provider.unspecified
  temperature := 0
  maxTokens := 0

/-- A second backend of a provider takes the statistics of the first away. -/
theorem again_not_accounted : ¬∀ (B L T σ : Type) (G : Guards B L) (W : Outside T σ) (outside : σ)
    (calls : List (Call T)), Along (call G W) (Routes G W) { outside } calls ∧
      ∀ n, ((calls.take n).foldl (call G W) { outside }).Accounted G := by
  intro h
  have := accounted_iff.mp ((h _ _ _ _ guards answering ()
    [.register oneBackend (), .generate anyRequest, .register oneBackend ()]).2 3) (ascii "openai")
  exact absurd this.1 (by decide +kernel)

end Session

end Ecco9.LlmGateway
