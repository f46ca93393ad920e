import Ecco9.Library.Locking
import Mathlib.Data.Rat.Floor

/-! The memory, reservoir and emotion devices of `core/ecco9/drivers`, each with its mutex. A clock
reading is an answer from outside, in nanoseconds; floating-point numbers are exact. -/

namespace Ecco9.Drivers

open Ecco9.Library

inductive DeviceStatus
  | offline
  | initializing
  | ready
  | active
  | error
  | maintenance
  deriving DecidableEq

inductive PowerState
  | off
  | standby
  | active
  | sleep
  deriving DecidableEq

inductive HealthStatus
  | healthy
  | degraded
  | critical
  | failed
  deriving DecidableEq

structure DeviceMetrics where
  operationCount : Nat := 0
  errorCount : Nat := 0
  averageLatency : Int := 0
  lastOperation : Int := 0

structure DeviceState where
  id : String
  name : String
  status : DeviceStatus := .offline
  power : PowerState := .off
  health : HealthStatus := .healthy
  metrics : DeviceMetrics := {}
  lastUpdate : Int := 0
  uptime : Int := 0

/-- The calls of a device that take its mutex. -/
inductive Call
  | initializeDevice
  | shutdown
  | reset
  | getState
  | setState (state : DeviceState)
  | read (length : Nat)
  | write (buffer : List UInt8)
  | getMetrics
  | getHealth
  /-- what the background loop calls -/
  | tick

inductive Result
  | returned (err : Option String)
  | transferred (n : Nat) (err : Option String)
  | state (state : DeviceState)
  | metrics (metrics : DeviceMetrics)
  | health (health : HealthStatus)

abbrev Code (σ : Type) : Type → Type := Procedure σ Int

/-- `time.Now` -/
def now : Code σ Int := .answer

/-- An operation is counted. -/
def DeviceMetrics.operation (m : DeviceMetrics) (now : Int) : DeviceMetrics :=
  { m with operationCount := m.operationCount + 1, lastOperation := now }

/-- `(AverageLatency + latency) / 2` -/
def DeviceMetrics.latency (m : DeviceMetrics) (latency : Int) : DeviceMetrics :=
  { m with averageLatency := (m.averageLatency + latency).tdiv 2 }

/-! ### Memory -/

structure MemoryConfig where
  maxNodes : Nat := 100000

structure MemoryNode where
  id : String
  content : List UInt8
  importance : ℚ
  created : Int
  lastAccess : Int
  accessCount : Nat

structure MemoryEdge where
  id : String
  nodeIDs : List String
  relation : String
  weight : ℚ
  created : Int

structure MemoryDevice where
  id : String
  name : String
  state : DeviceState
  config : MemoryConfig
  /-- the map by `ID` -/
  nodes : List MemoryNode := []
  edges : List MemoryEdge := []
  metrics : DeviceMetrics := {}
  startTime : Int := 0
  lastConsolidation : Int := 0
  /-- the goroutines of `runConsolidationLoop` -/
  loops : Nat := 0

/-- An hour in nanoseconds. -/
def hour : Int := 3600000000000

/-- What `consolidate` deletes. -/
def MemoryNode.forgotten (node : MemoryNode) (now : Int) : Bool :=
  node.importance < 1 / 10 ∧ now - node.lastAccess > 24 * hour

/-- What `consolidate` makes of a node that stays. -/
def MemoryNode.decayed (node : MemoryNode) (now : Int) : MemoryNode :=
  let age := now - node.created
  let decayFactor : ℚ := 1 - (age : ℚ) / hour / (30 * 24)
  let decayFactor := if decayFactor < 1 / 10 then 1 / 10 else decayFactor
  let accessBoost : ℚ := node.accessCount / 100
  let accessBoost := if accessBoost > 1 / 2 then 1 / 2 else accessBoost
  let importance := node.importance * decayFactor + accessBoost
  { node with importance := if importance > 1 then 1 else importance }

namespace MemoryDevice

def new (id : String) (config : MemoryConfig) : MemoryDevice where
  id
  name := "Hypergraph Memory Array " ++ id
  state := { id, name := "Memory " ++ id }
  config

def initializeDevice : Code MemoryDevice (Option String) := .guarded .write do
  .update fun md => { md with state := { md.state with status := .initializing, power := .active } }
  let startTime ← now
  let lastConsolidation ← now
  .update fun md =>
    { md with startTime, lastConsolidation, state := { md.state with status := .ready } }
  let lastUpdate ← now
  .update fun md => { md with state := { md.state with lastUpdate }, loops := md.loops + 1 }
  return none

def consolidate : Code MemoryDevice Unit := .guarded .write do
  let now ← now
  .update fun md => { md with nodes := md.nodes.filter fun node => !node.forgotten now }
  .update fun md => { md with nodes := md.nodes.map fun node => node.decayed now }
  .update fun md => { md with lastConsolidation := now }

def shutdown : Code MemoryDevice (Option String) := .guarded .write do
  .update fun md => { md with state := { md.state with status := .offline, power := .off } }
  return none

def reset : Code MemoryDevice (Option String) := .guarded .write do
  .update fun md => { md with nodes := [], edges := [] }
  initializeDevice

def getState : Code MemoryDevice DeviceState := .guarded .read do
  let md ← .state
  let now ← now
  return { md.state with uptime := now - md.startTime, metrics := md.metrics }

def setState (state : DeviceState) : Code MemoryDevice Unit := .guarded .write do
  .update fun md => { md with state }

/-- With the text of the status, which is formatted outside. -/
def read (status : MemoryDevice → Int → List UInt8) (length : Nat) : Code MemoryDevice (Nat × Option String) :=
  .guarded .read do
    let md ← .state
    let sinceConsolidation ← now
    let n := min length (status md sinceConsolidation).length
    let lastOperation ← now
    .update fun md => { md with metrics := md.metrics.operation lastOperation }
    return (n, none)

def write (buffer : List UInt8) : Code MemoryDevice (Nat × Option String) := .guarded .write do
  let startTime ← now
  let nano ← now
  let created ← now
  let lastAccess ← now
  let id := "node_" ++ toString nano
  let node : MemoryNode :=
    { id, content := buffer, importance := 1 / 2, created, lastAccess, accessCount := 0 }
  .update fun md => { md with nodes := node :: md.nodes.filter fun n => n.id ≠ id }
  let lastOperation ← now
  .update fun md => { md with metrics := md.metrics.operation lastOperation }
  let finished ← now
  .update fun md => { md with metrics := md.metrics.latency (finished - startTime) }
  return (buffer.length, none)

def getMetrics : Code MemoryDevice DeviceMetrics := .guarded .read do
  let md ← .state
  return md.metrics

def getHealth : Code MemoryDevice HealthStatus := .guarded .read do
  let md ← .state
  return if 95 * md.config.maxNodes < 100 * md.nodes.length then .critical
    else if 80 * md.config.maxNodes < 100 * md.nodes.length then .degraded
    else md.state.health

def service (status : MemoryDevice → Int → List UInt8) : Service Call MemoryDevice Int Result where
  procedure
    | .initializeDevice => .returned <$> initializeDevice
    | .shutdown => .returned <$> shutdown
    | .reset => .returned <$> reset
    | .getState => .state <$> getState
    | .setState state => (fun _ => .returned none) <$> setState state
    | .read length => (fun (n, err) => .transferred n err) <$> read status length
    | .write buffer => (fun (n, err) => .transferred n err) <$> write buffer
    | .getMetrics => .metrics <$> getMetrics
    | .getHealth => .health <$> getHealth
    | .tick => (fun _ => .returned none) <$> consolidate
  offered md
    | .tick => 0 < md.loops
    | _ => true

end MemoryDevice

/-! ### Reservoir -/

structure EchoStateReservoir where
  size : Nat
  spectralRadius : ℚ
  leakRate : ℚ
  state : List ℚ
  weights : List (List ℚ) := []
  initialized : Bool := false

namespace EchoStateReservoir

def new (size : Nat) (spectralRadius leakRate : ℚ) : EchoStateReservoir where
  size
  spectralRadius
  leakRate
  state := List.replicate size 0
  weights := List.replicate size []

/-- `Initialize`, with the error that it returns. -/
def fill (esr : EchoStateReservoir) : EchoStateReservoir × Option String :=
  ({ esr with
    weights := esr.weights.mapIdx fun i _ => (List.range esr.size).map fun j =>
      ((i + j : ℕ) : ℚ) / (esr.size * esr.size : ℕ) * esr.spectralRadius
    initialized := true }, none)

def update (esr : EchoStateReservoir) (input : List UInt8) : Except String EchoStateReservoir :=
  if esr.initialized then
    .ok { esr with state := esr.state.mapIdx fun i x =>
      match input[i]? with
      | some b => if i < esr.size then (1 - esr.leakRate) * x + esr.leakRate * b.toNat / 255 else x
      | none => x }
  else .error "reservoir not initialized"

def getState (esr : EchoStateReservoir) : List UInt8 :=
  esr.state.map fun v => UInt8.ofNat ⌊v * 255⌋.toNat

end EchoStateReservoir

structure ReservoirConfig where
  reservoirSize : Nat := 100
  spectralRadius : ℚ := 19 / 20
  leakRate : ℚ := 3 / 10

structure ReservoirDevice where
  id : String
  name : String
  state : DeviceState
  config : ReservoirConfig
  reservoir : Option EchoStateReservoir := none
  metrics : DeviceMetrics := {}
  startTime : Int := 0

namespace ReservoirDevice

def new (id : String) (config : ReservoirConfig) : ReservoirDevice where
  id
  name := "Echo State Reservoir " ++ id
  state := { id, name := "Reservoir " ++ id }
  config

/-- The reservoir that `Initialize` creates. -/
def created (rd : ReservoirDevice) : EchoStateReservoir :=
  .new rd.config.reservoirSize rd.config.spectralRadius rd.config.leakRate

def initializeDevice : Code ReservoirDevice (Option String) := .guarded .write do
  .update fun rd => { rd with state := { rd.state with status := .initializing, power := .active } }
  let rd ← .state
  let (esr, err) := rd.created.fill
  .update fun rd => { rd with reservoir := some esr }
  match err with
  | some err =>
    .update fun rd => { rd with state := { rd.state with status := .error, health := .failed } }
    return some err
  | none =>
    let startTime ← now
    .update fun rd => { rd with startTime, state := { rd.state with status := .ready } }
    let lastUpdate ← now
    .update fun rd => { rd with state := { rd.state with lastUpdate } }
    return none

def shutdown : Code ReservoirDevice (Option String) := .guarded .write do
  .update fun rd =>
    { rd with reservoir := none, state := { rd.state with status := .offline, power := .off } }
  return none

def reset : Code ReservoirDevice (Option String) := do
  match ← shutdown with
  | some err => return some err
  | none => initializeDevice

def getState : Code ReservoirDevice DeviceState := .guarded .read do
  let rd ← .state
  let now ← now
  return { rd.state with uptime := now - rd.startTime, metrics := rd.metrics }

def setState (state : DeviceState) : Code ReservoirDevice Unit := .guarded .write do
  .update fun rd => { rd with state }

def read (length : Nat) : Code ReservoirDevice (Nat × Option String) := .guarded .read do
  let rd ← .state
  match rd.reservoir with
  | none => return (0, some "reservoir not initialized")
  | some esr =>
    let n := min length esr.getState.length
    let lastOperation ← now
    .update fun rd => { rd with metrics := rd.metrics.operation lastOperation }
    return (n, none)

def write (buffer : List UInt8) : Code ReservoirDevice (Nat × Option String) := .guarded .write do
  let rd ← .state
  match rd.reservoir with
  | none => return (0, some "reservoir not initialized")
  | some esr =>
    let startTime ← now
    match esr.update buffer with
    | .error err =>
      .update fun rd =>
        { rd with metrics := { rd.metrics with errorCount := rd.metrics.errorCount + 1 } }
      return (0, some err)
    | .ok esr =>
      .update fun rd => { rd with reservoir := some esr }
      let lastOperation ← now
      .update fun rd => { rd with metrics := rd.metrics.operation lastOperation }
      let finished ← now
      .update fun rd => { rd with metrics := rd.metrics.latency (finished - startTime) }
      return (buffer.length, none)

def getMetrics : Code ReservoirDevice DeviceMetrics := .guarded .read do
  let rd ← .state
  return rd.metrics

def getHealth : Code ReservoirDevice HealthStatus := .guarded .read do
  let rd ← .state
  return rd.state.health

/-- This device has no background loop. -/
def service : Service Call ReservoirDevice Int Result where
  procedure
    | .initializeDevice => .returned <$> initializeDevice
    | .shutdown => .returned <$> shutdown
    | .reset => .returned <$> reset
    | .getState => .state <$> getState
    | .setState state => (fun _ => .returned none) <$> setState state
    | .read length => (fun (n, err) => .transferred n err) <$> read length
    | .write buffer => (fun (n, err) => .transferred n err) <$> write buffer
    | .getMetrics => .metrics <$> getMetrics
    | .getHealth => .health <$> getHealth
    | .tick => return .returned none
  offered _
    | .tick => false
    | _ => true

end ReservoirDevice

/-! ### Emotion -/

inductive Emotion
  | interest
  | joy
  | surprise
  | sadness
  | anger
  | disgust
  | contempt
  | fear
  | shame
  | guilt
  deriving DecidableEq

def emotionNames : List Emotion :=
  [.interest, .joy, .surprise, .sadness, .anger, .disgust, .contempt, .fear, .shame, .guilt]

structure EmotionConfig where
  decayRate : ℚ := 1 / 20
  blendingAlpha : ℚ := 3 / 10

structure EmotionChannel where
  name : Emotion
  intensity : ℚ
  lastUpdate : Int

structure EmotionDevice where
  id : String
  name : String
  state : DeviceState
  config : EmotionConfig
  /-- The keys of the map are those of `emotionNames`; the map is never nil. -/
  emotions : Emotion → Option EmotionChannel := fun _ => none
  arousal : ℚ := 1 / 2
  valence : ℚ := 1 / 2
  metrics : DeviceMetrics := {}
  startTime : Int := 0
  /-- the goroutines of `runDecayLoop` -/
  loops : Nat := 0

/-- What `applyDecay` makes of a channel. -/
def EmotionChannel.decayed (channel : EmotionChannel) (decayRate : ℚ) : EmotionChannel :=
  let intensity := channel.intensity * (1 - decayRate)
  { channel with intensity := if intensity < 1 / 100 then 0 else intensity }

namespace EmotionDevice

def new (id : String) (config : EmotionConfig) : EmotionDevice where
  id
  name := "Emotion Processing Unit " ++ id
  state := { id, name := "Emotion " ++ id }
  config

def setChannel (ed : EmotionDevice) (name : Emotion) (channel : EmotionChannel) : EmotionDevice :=
  { ed with emotions := Function.update ed.emotions name (some channel) }

def initializeChannel (name : Emotion) : Code EmotionDevice Unit := do
  let lastUpdate ← now
  .update fun ed => ed.setChannel name { name, intensity := 0, lastUpdate }

def initializeDevice : Code EmotionDevice (Option String) := .guarded .write do
  .update fun ed => { ed with state := { ed.state with status := .initializing, power := .active } }
  Procedure.each initializeChannel emotionNames
  let startTime ← now
  .update fun ed => { ed with startTime, state := { ed.state with status := .ready } }
  let lastUpdate ← now
  .update fun ed => { ed with state := { ed.state with lastUpdate }, loops := ed.loops + 1 }
  return none

def applyDecay : Code EmotionDevice Unit := .guarded .write do
  .update fun ed =>
    { ed with emotions := fun name => (ed.emotions name).map fun c => c.decayed ed.config.decayRate }
  .update fun ed =>
    { ed with
      arousal := ed.arousal + (1 / 2 - ed.arousal) * ed.config.decayRate
      valence := ed.valence + (1 / 2 - ed.valence) * ed.config.decayRate }

def shutdown : Code EmotionDevice (Option String) := .guarded .write do
  .update fun ed => { ed with
    emotions := fun _ => none
    state := { ed.state with status := .offline, power := .off } }
  return none

def reset : Code EmotionDevice (Option String) := do
  match ← shutdown with
  | some err => return some err
  | none => initializeDevice

def getState : Code EmotionDevice DeviceState := .guarded .read do
  let ed ← .state
  let now ← now
  return { ed.state with uptime := now - ed.startTime, metrics := ed.metrics }

def setState (state : DeviceState) : Code EmotionDevice Unit := .guarded .write do
  .update fun ed => { ed with state }

/-- With the text of the affect and of the three strongest emotions, which is formatted outside. -/
def read (status : EmotionDevice → List UInt8) (length : Nat) : Code EmotionDevice (Nat × Option String) :=
  .guarded .read do
    let ed ← .state
    let n := min length (status ed).length
    let lastOperation ← now
    .update fun ed => { ed with metrics := ed.metrics.operation lastOperation }
    return (n, none)

def setEmotion (name : Emotion) (intensity : ℚ) : Code EmotionDevice Unit := do
  let ed ← .state
  match ed.emotions name with
  | none => return ()
  | some channel =>
    let alpha := ed.config.blendingAlpha
    let lastUpdate ← now
    .update fun ed => ed.setChannel name { channel with
      intensity := channel.intensity * (1 - alpha) + intensity * alpha
      lastUpdate }

/-- What the input of that length triggers. -/
def trigger (inputLen : Nat) : Code EmotionDevice Unit :=
  if 0 < inputLen then do
    setEmotion .interest (min (inputLen / 100) 1)
    .update fun ed => { ed with arousal := min (1 / 2 + inputLen / 200) 1, valence := 1 / 2 + 1 / 5 }
  else return ()

def write (buffer : List UInt8) : Code EmotionDevice (Nat × Option String) := .guarded .write do
  let startTime ← now
  trigger buffer.length
  let lastOperation ← now
  .update fun ed => { ed with metrics := ed.metrics.operation lastOperation }
  let finished ← now
  .update fun ed => { ed with metrics := ed.metrics.latency (finished - startTime) }
  return (buffer.length, none)

def getMetrics : Code EmotionDevice DeviceMetrics := .guarded .read do
  let ed ← .state
  return ed.metrics

def getHealth : Code EmotionDevice HealthStatus := .guarded .read do
  let ed ← .state
  return ed.state.health

def service (status : EmotionDevice → List UInt8) : Service Call EmotionDevice Int Result where
  procedure
    | .initializeDevice => .returned <$> initializeDevice
    | .shutdown => .returned <$> shutdown
    | .reset => .returned <$> reset
    | .getState => .state <$> getState
    | .setState state => (fun _ => .returned none) <$> setState state
    | .read length => (fun (n, err) => .transferred n err) <$> read status length
    | .write buffer => (fun (n, err) => .transferred n err) <$> write buffer
    | .getMetrics => .metrics <$> getMetrics
    | .getHealth => .health <$> getHealth
    | .tick => (fun _ => .returned none) <$> applyDecay
  offered ed
    | .tick => 0 < ed.loops
    | _ => true

end EmotionDevice

end Ecco9.Drivers
