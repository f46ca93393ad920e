import Ecco9.Library.Assignments
import Ecco9.Library.Decimal
import Ecco9.Library.Runs
import Ecco9.Library.Trim
import Mathlib.Algebra.Order.Ring.Rat
import Mathlib.Tactic.Linarith

/-! `ResourceManager` of `orchestration/performance.go`, in exact arithmetic: what is recorded as used,
and what is reserved. -/

namespace Ecco9.Orchestration

open Ecco9.Library

inductive Resource
  | cpu
  | memory
  | network
  | storage
  | gpu
  deriving DecidableEq

structure ResourceUsage where
  agentID : Text
  cpuUsage : ℚ := 0
  memoryUsageGB : ℚ := 0
  networkUsageMbps : ℚ := 0
  storageUsageGB : ℚ := 0
  gpuUsage : ℚ := 0
  deriving DecidableEq

namespace ResourceUsage

def of (u : ResourceUsage) : Resource → ℚ
  | .cpu => u.cpuUsage
  | .memory => u.memoryUsageGB
  | .network => u.networkUsageMbps
  | .storage => u.storageUsageGB
  | .gpu => u.gpuUsage

def add (u v : ResourceUsage) : ResourceUsage where
  agentID := u.agentID
  cpuUsage := u.cpuUsage + v.cpuUsage
  memoryUsageGB := u.memoryUsageGB + v.memoryUsageGB
  networkUsageMbps := u.networkUsageMbps + v.networkUsageMbps
  storageUsageGB := u.storageUsageGB + v.storageUsageGB
  gpuUsage := u.gpuUsage + v.gpuUsage

def sub (u v : ResourceUsage) : ResourceUsage where
  agentID := u.agentID
  cpuUsage := u.cpuUsage - v.cpuUsage
  memoryUsageGB := u.memoryUsageGB - v.memoryUsageGB
  networkUsageMbps := u.networkUsageMbps - v.networkUsageMbps
  storageUsageGB := u.storageUsageGB - v.storageUsageGB
  gpuUsage := u.gpuUsage - v.gpuUsage

@[simp] theorem add_of (u v : ResourceUsage) (r : Resource) : (u.add v).of r = u.of r + v.of r := by
  cases r <;> rfl

@[simp] theorem sub_of (u v : ResourceUsage) (r : Resource) : (u.sub v).of r = u.of r - v.of r := by
  cases r <;> rfl

@[simp] theorem agentID_of (u : ResourceUsage) (agentID : Text) (r : Resource) :
    { u with agentID }.of r = u.of r := by
  cases r <;> rfl

end ResourceUsage

/-- What a task asks for. -/
structure Requirements extends ResourceUsage where
  nonneg : ∀ r, 0 ≤ toResourceUsage.of r
  deriving DecidableEq

structure ResourcePool where
  cpuCores : Int
  memoryGB : ℚ
  networkBandwidthMbps : Int
  storageGB : ℚ
  gpuCount : Int

def ResourcePool.of (p : ResourcePool) : Resource → ℚ
  | .cpu => p.cpuCores
  | .memory => p.memoryGB
  | .network => p.networkBandwidthMbps
  | .storage => p.storageGB
  | .gpu => p.gpuCount

structure ResourceReservation where
  reservationID : Text
  agentID : Text
  taskID : Text
  resources : Requirements
  deriving DecidableEq

structure ResourceManager where
  availableResources : ResourcePool
  /-- the map by agent -/
  resourceUsage : List ResourceUsage := []
  /-- the map by id -/
  reservations : List ResourceReservation := []

def newResourceManager : ResourceManager where
  availableResources := ⟨8, 32, 1000, 1000, 2⟩

/-- `%d` -/
def decimalInt : Int → Text
  | .ofNat n => decimal n
  | .negSucc n => 45 :: decimal (n + 1)

/-- `res_%s_%d` with the task and the time in seconds -/
def reservationID (taskID : Text) (unix : Int) : Text :=
  ascii "res_" ++ taskID ++ 95 :: decimalInt unix

namespace ResourceManager

def total (rm : ResourceManager) (r : Resource) : ℚ := (rm.resourceUsage.map fun u => u.of r).sum

def hasAvailableResources (rm : ResourceManager) (requirements : ResourceUsage) : Bool :=
  rm.total .cpu + requirements.cpuUsage ≤ rm.availableResources.cpuCores ∧
    rm.total .memory + requirements.memoryUsageGB ≤ rm.availableResources.memoryGB ∧
    rm.total .network + requirements.networkUsageMbps ≤ rm.availableResources.networkBandwidthMbps ∧
    rm.total .storage + requirements.storageUsageGB ≤ rm.availableResources.storageGB ∧
    rm.total .gpu + requirements.gpuUsage ≤ rm.availableResources.gpuCount

def usage? (rm : ResourceManager) (agentID : Text) : Option ResourceUsage :=
  Keyed.lookup ResourceUsage.agentID agentID rm.resourceUsage

def putUsage (rm : ResourceManager) (u : ResourceUsage) : ResourceManager :=
  { rm with resourceUsage := Keyed.put ResourceUsage.agentID u rm.resourceUsage }

def updateResourceUsage (rm : ResourceManager) (agentID : Text) (requirements : ResourceUsage) :
    ResourceManager :=
  match rm.usage? agentID with
  | some usage => rm.putUsage (usage.add requirements)
  | none => rm.putUsage { requirements with agentID }

def reservation? (rm : ResourceManager) (id : Text) : Option ResourceReservation :=
  Keyed.lookup ResourceReservation.reservationID id rm.reservations

def putReservation (rm : ResourceManager) (x : ResourceReservation) : ResourceManager :=
  { rm with reservations := Keyed.put ResourceReservation.reservationID x rm.reservations }

/-- The reservation that a call makes if it is granted. -/
def reserve (taskID agentID : Text) (requirements : Requirements) (unix : Int) : ResourceReservation where
  reservationID := reservationID taskID unix
  agentID
  taskID
  resources := requirements

/-- Without a result the resources are insufficient. -/
def allocateResources (rm : ResourceManager) (taskID agentID : Text) (requirements : Requirements)
    (unix : Int) : Option (ResourceReservation × ResourceManager) :=
  if rm.hasAvailableResources requirements.toResourceUsage then
    let reservation := reserve taskID agentID requirements unix
    some (reservation,
      (rm.putReservation reservation).updateResourceUsage agentID requirements.toResourceUsage)
  else none

/-- Without a result the reservation is not found. -/
def releaseResources (rm : ResourceManager) (id : Text) : Option ResourceManager :=
  match rm.reservation? id with
  | none => none
  | some reservation =>
    let rm' := match rm.usage? reservation.agentID with
      | some usage => rm.putUsage (usage.sub reservation.resources.toResourceUsage)
      | none => rm
    some { rm' with reservations := Keyed.remove ResourceReservation.reservationID id rm.reservations }

end ResourceManager

/-! ### Runs -/

/-- A reservation that was granted, with the second that its id has. -/
structure Grant where
  reservation : ResourceReservation
  second : Int

inductive Call
  | allocate (taskID agentID : Text) (requirements : Requirements) (unix : Int)
  | release (id : Text)

/-- The manager, with what was granted and not yet released. -/
structure Ledger where
  manager : ResourceManager := newResourceManager
  outstanding : List Grant := []

namespace Ledger

/-- A release is one of the reservation that the manager has under the id. -/
def call (l : Ledger) : Call → Ledger
  | .allocate taskID agentID requirements unix =>
    match l.manager.allocateResources taskID agentID requirements unix with
    | none => l
    | some (reservation, manager) => ⟨manager, l.outstanding ++ [⟨reservation, unix⟩]⟩
  | .release id =>
    match l.manager.releaseResources id with
    | none => l
    | some manager =>
      ⟨manager, l.outstanding.eraseP fun g => l.manager.reservation? id = some g.reservation⟩

/-- The sum of what an agent has got. -/
def used (l : Ledger) (agentID : Text) (r : Resource) : ℚ :=
  ((l.outstanding.filter fun g => g.reservation.agentID = agentID).map fun g =>
    g.reservation.resources.of r).sum

end Ledger

/-- The recorded usage of an agent. -/
def ResourceManager.recorded (rm : ResourceManager) (agentID : Text) (r : Resource) : ℚ :=
  ((rm.usage? agentID).map fun u => u.of r).getD 0

namespace Ledger

structure Accounted (l : Ledger) : Prop where
  usage : ∀ agentID r, l.manager.recorded agentID r = l.used agentID r
  pool : ∀ r, l.manager.total r ≤ l.manager.availableResources.of r
  ids : (l.outstanding.map fun g => g.reservation.reservationID).Nodup
  /-- by its own id, and then no more -/
  released : ∀ g ∈ l.outstanding, ∃ rm,
    l.manager.releaseResources g.reservation.reservationID = some rm ∧
      rm.releaseResources g.reservation.reservationID = none

/-- A call is not granted for a task that holds a reservation of the same second. -/
def Apart (l : Ledger) : Call → Prop
  | .allocate taskID _ requirements unix =>
    l.manager.hasAvailableResources requirements.toResourceUsage →
      ∀ g ∈ l.outstanding, g.reservation.taskID = taskID → g.second ≠ unix
  | .release _ => True

end Ledger

/-! ### Ids -/

theorem decimalInt_plain {i : Int} {b : UInt8} (h : b ∈ decimalInt i) : b ≠ 95 := by
  have digit {n : Nat} {b : UInt8} (h : b ∈ decimal n) : b ≠ 95 := by
    rintro rfl
    exact absurd (isDigit_of_mem_decimal h).2 (by decide)
  cases i with
  | ofNat n => exact digit h
  | negSucc n =>
    rcases List.mem_cons.mp h with rfl | h
    · decide
    · exact digit h

theorem decimalInt_injective {i j : Int} (h : decimalInt i = decimalInt j) : i = j := by
  have signed {n m : Nat} (h : decimal n = 45 :: decimal m) : False := by
    have hmem : (45 : UInt8) ∈ decimal n := h ▸ List.mem_cons_self
    exact absurd (isDigit_of_mem_decimal hmem).1 (by decide)
  cases i with
  | ofNat n =>
    cases j with
    | ofNat m => exact congrArg _ (decimal_injective h)
    | negSucc m => exact (signed h).elim
  | negSucc n =>
    cases j with
    | ofNat m => exact (signed h.symm).elim
    | negSucc m => exact congrArg _ (Nat.succ.inj (decimal_injective (List.cons.inj h).2))

/-- The id says the task and the second. -/
theorem reservationID_inj {task task' : Text} {unix unix' : Int} :
    reservationID task unix = reservationID task' unix' ↔ task = task' ∧ unix = unix' := by
  refine ⟨fun h => ?_, fun ⟨htask, hunix⟩ => htask ▸ hunix ▸ rfl⟩
  have cut (task : Text) (unix : Int) : cutLast (· = 95) (reservationID task unix) =
      some (ascii "res_" ++ task, 95, decimalInt unix) :=
    cutLast_append (by decide) (fun b hb => by simpa using decimalInt_plain hb) _
  have heq := (cut task unix).symm.trans (h ▸ cut task' unix')
  simp only [Option.some.injEq, Prod.mk.injEq, true_and] at heq
  exact ⟨List.append_cancel_left heq.1, decimalInt_injective heq.2⟩

/-! ### The manager -/

namespace ResourceManager

variable {rm rm' : ResourceManager}

theorem hasAvailableResources_iff {requirements : ResourceUsage} :
    rm.hasAvailableResources requirements ↔
      ∀ r, rm.total r + requirements.of r ≤ rm.availableResources.of r := by
  rw [hasAvailableResources, decide_eq_true_eq]
  constructor
  · rintro ⟨cpu, memory, network, storage, gpu⟩ r
    cases r
    exacts [cpu, memory, network, storage, gpu]
  · exact fun h => ⟨h .cpu, h .memory, h .network, h .storage, h .gpu⟩

theorem recorded_putUsage (u : ResourceUsage) (agentID : Text) (r : Resource) :
    (rm.putUsage u).recorded agentID r = if u.agentID = agentID then u.of r else rm.recorded agentID r := by
  rw [recorded, usage?, putUsage, Keyed.lookup_put]
  split_ifs <;> rfl

theorem total_putUsage (rm : ResourceManager) (u : ResourceUsage) (r : Resource) :
    (rm.putUsage u).total r + rm.recorded u.agentID r = rm.total r + u.of r :=
  Keyed.sum_put ResourceUsage.agentID (fun u => u.of r) u rm.resourceUsage

theorem usage?_putUsage (u : ResourceUsage) {agentID : Text} (h : (rm.usage? agentID).isSome) :
    ((rm.putUsage u).usage? agentID).isSome := by
  rw [usage?, putUsage, Keyed.lookup_put]
  split_ifs
  · rfl
  · exact h

theorem usage?_agentID {agentID : Text} {u : ResourceUsage} (h : rm.usage? agentID = some u) :
    u.agentID = agentID := (Keyed.mem_of_lookup h).2

/-- What allocating does to the records: the share of the agent is added, and nothing else changes. -/
theorem updateResourceUsage_spec (rm : ResourceManager) (agentID : Text) (requirements : ResourceUsage) :
    let rm' := rm.updateResourceUsage agentID requirements
    (∀ agentID' r, rm'.recorded agentID' r =
      rm.recorded agentID' r + if agentID = agentID' then requirements.of r else 0) ∧
    (∀ r, rm'.total r = rm.total r + requirements.of r) ∧
    (∀ agentID', agentID = agentID' ∨ (rm.usage? agentID').isSome → (rm'.usage? agentID').isSome) ∧
    rm'.availableResources = rm.availableResources ∧ rm'.reservations = rm.reservations := by
  have key : ∃ u, rm.updateResourceUsage agentID requirements = rm.putUsage u ∧ u.agentID = agentID ∧
      ∀ r, u.of r = rm.recorded agentID r + requirements.of r := by
    rw [updateResourceUsage]
    cases h : rm.usage? agentID with
    | none => exact ⟨_, rfl, rfl, fun r => by rw [ResourceUsage.agentID_of, recorded, h]; simp⟩
    | some u =>
      have hagent : u.agentID = agentID := usage?_agentID h
      exact ⟨_, rfl, hagent, fun r => by rw [ResourceUsage.add_of, recorded, h]; rfl⟩
  obtain ⟨u, heq, rfl, hu⟩ := key
  rw [heq]
  refine ⟨fun agentID' r => ?_, fun r => ?_, fun agentID' h => ?_, rfl, rfl⟩
  · rw [recorded_putUsage]
    split_ifs with h
    · rw [hu, h]
    · rw [add_zero]
  · have := rm.total_putUsage u r
    rw [hu] at this
    linarith
  · rcases h with rfl | h
    · rw [usage?, putUsage, Keyed.lookup_put, if_pos rfl]
      rfl
    · exact usage?_putUsage u h

theorem allocateResources_eq_some {taskID agentID : Text} {requirements : Requirements} {unix : Int}
    {x : ResourceReservation} (h : rm.allocateResources taskID agentID requirements unix = some (x, rm')) :
    rm.hasAvailableResources requirements.toResourceUsage ∧
      x = reserve taskID agentID requirements unix ∧
      rm' = (rm.putReservation x).updateResourceUsage agentID requirements.toResourceUsage := by
  rw [allocateResources] at h
  split_ifs at h with havailable
  cases h
  exact ⟨havailable, rfl, rfl⟩

/-- What releasing does to the records of a known agent: its share is taken away. -/
theorem releaseResources_spec {id : Text} {x : ResourceReservation} (hx : rm.reservation? id = some x)
    (known : (rm.usage? x.agentID).isSome) : ∃ rm', rm.releaseResources id = some rm' ∧
    (∀ agentID r, rm'.recorded agentID r =
      rm.recorded agentID r - if x.agentID = agentID then x.resources.of r else 0) ∧
    (∀ r, rm'.total r = rm.total r - x.resources.of r) ∧
    (∀ agentID, (rm.usage? agentID).isSome → (rm'.usage? agentID).isSome) ∧
    rm'.availableResources = rm.availableResources ∧
    rm'.reservations = Keyed.remove ResourceReservation.reservationID id rm.reservations := by
  obtain ⟨u, hu⟩ := Option.isSome_iff_exists.mp known
  have hagent := usage?_agentID hu
  have hrecorded (r : Resource) : rm.recorded x.agentID r = u.of r := by
    rw [recorded, hu]
    rfl
  have hsub : (u.sub x.resources.toResourceUsage).agentID = x.agentID := hagent
  refine ⟨_, by rw [releaseResources, hx], ?_⟩
  dsimp only
  rw [hu]
  dsimp only
  refine ⟨fun agentID r => ?_, fun r => ?_, fun agentID h => usage?_putUsage _ h, rfl, rfl⟩
  · refine (recorded_putUsage _ agentID r).trans ?_
    rw [hsub]
    split_ifs with h
    · rw [ResourceUsage.sub_of, ← h, hrecorded]
    · rw [sub_zero]
  · have htotal := rm.total_putUsage (u.sub x.resources.toResourceUsage) r
    rw [hsub, hrecorded, ResourceUsage.sub_of] at htotal
    have heq : ∀ l, ResourceManager.total { rm.putUsage (u.sub x.resources.toResourceUsage) with
        reservations := l } r = (rm.putUsage (u.sub x.resources.toResourceUsage)).total r := fun _ => rfl
    rw [heq]
    linarith

theorem releaseResources_eq_none {id : Text} : rm.releaseResources id = none ↔ rm.reservation? id = none := by
  rw [releaseResources]
  cases rm.reservation? id <;> simp

end ResourceManager

/-! ### The ledger -/

namespace Ledger

variable {l : Ledger}

/-- What holds of every run. -/
structure Sound (l : Ledger) : Prop where
  held : ∀ x ∈ l.manager.reservations, ∃ g ∈ l.outstanding, g.reservation = x
  known : ∀ g ∈ l.outstanding, (l.manager.usage? g.reservation.agentID).isSome
  named : ∀ g ∈ l.outstanding,
    g.reservation.reservationID = reservationID g.reservation.taskID g.second

theorem used_append (l : Ledger) (manager : ResourceManager) (g : Grant) (agentID : Text) (r : Resource) :
    used ⟨manager, l.outstanding ++ [g]⟩ agentID r =
      l.used agentID r + if g.reservation.agentID = agentID then g.reservation.resources.of r else 0 := by
  rw [used, used, List.filter_append, List.map_append, List.sum_append, List.filter_singleton]
  by_cases h : g.reservation.agentID = agentID <;> simp [h]

/-- What is left when a reservation is released that was granted. -/
theorem used_eraseP {p : Grant → Bool} {x : ResourceReservation}
    (hp : ∀ g, p g = true ↔ g.reservation = x) (hx : ∃ g ∈ l.outstanding, g.reservation = x)
    (manager : ResourceManager) (agentID : Text) (r : Resource) :
    used ⟨manager, l.outstanding.eraseP p⟩ agentID r =
      l.used agentID r - if x.agentID = agentID then x.resources.of r else 0 := by
  obtain ⟨g, hg, hgx⟩ := hx
  obtain ⟨g, before, after, -, hg, hl, herase⟩ := List.exists_of_eraseP hg ((hp g).mpr hgx)
  obtain rfl := (hp g).mp hg
  rw [used, herase, used, hl]
  simp only [List.filter_append, List.filter_cons, List.map_append, List.sum_append]
  by_cases h : g.reservation.agentID = agentID
  · simp only [h, decide_true, if_true, List.map_cons, List.sum_cons]
    linarith
  · simp [h]

theorem sound_empty : Sound {} := ⟨nofun, nofun, nofun⟩

theorem accounted_empty : Accounted {} where
  usage _ _ := rfl
  pool r := by cases r <;> decide
  ids := List.nodup_nil
  released := nofun

/-- A release takes the reservation that is held under the id. -/
theorem call_release {id : Text} {x : ResourceReservation} (h : l.Sound)
    (hx : l.manager.reservation? id = some x) :
    (∃ g ∈ l.outstanding, g.reservation = x) ∧ (l.manager.usage? x.agentID).isSome ∧
      x.reservationID = id := by
  obtain ⟨hmem, hid⟩ := Keyed.mem_of_lookup hx
  obtain ⟨g, hg, rfl⟩ := h.held x hmem
  exact ⟨⟨g, hg, rfl⟩, h.known g hg, hid⟩

theorem Sound.call (h : l.Sound) (c : Call) : (l.call c).Sound := by
  cases c with
  | allocate taskID agentID requirements unix =>
    rw [Ledger.call]
    cases halloc : l.manager.allocateResources taskID agentID requirements unix with
    | none => exact h
    | some result =>
      obtain ⟨x, manager⟩ := result
      obtain ⟨-, rfl, rfl⟩ := ResourceManager.allocateResources_eq_some halloc
      obtain ⟨-, -, known, -, reservations⟩ := ResourceManager.updateResourceUsage_spec
        (l.manager.putReservation (ResourceManager.reserve taskID agentID requirements unix)) agentID
        requirements.toResourceUsage
      refine ⟨fun x hx => ?_, fun g hg => ?_, fun g hg => ?_⟩
      · dsimp only at hx
        rw [reservations] at hx
        rcases Keyed.mem_put hx with rfl | hx
        · exact ⟨_, List.mem_append_right _ List.mem_cons_self, rfl⟩
        · obtain ⟨g, hg, heq⟩ := h.held x hx
          exact ⟨g, List.mem_append_left _ hg, heq⟩
      · rcases List.mem_append.mp hg with hg | hg
        · exact known _ (.inr (h.known g hg))
        · rw [List.mem_singleton.mp hg]
          exact known _ (.inl rfl)
      · rcases List.mem_append.mp hg with hg | hg
        · exact h.named g hg
        · rw [List.mem_singleton.mp hg]
          rfl
  | release id =>
    rw [Ledger.call]
    cases hx : l.manager.reservation? id with
    | none =>
      rw [ResourceManager.releaseResources_eq_none.mpr hx]
      exact h
    | some x =>
      obtain ⟨-, hknown, hid⟩ := call_release h hx
      obtain ⟨manager, hrelease, -, -, known, -, reservations⟩ :=
        ResourceManager.releaseResources_spec hx hknown
      rw [hrelease]
      refine ⟨fun y hy => ?_, fun g hg => known _ (h.known g (List.mem_of_mem_eraseP hg)),
        fun g hg => h.named g (List.mem_of_mem_eraseP hg)⟩
      dsimp only at hy
      rw [reservations] at hy
      obtain ⟨hy, hne⟩ := Keyed.mem_remove.mp hy
      obtain ⟨g, hg, rfl⟩ := h.held y hy
      refine ⟨g, (List.mem_eraseP_of_neg ?_).mpr hg, rfl⟩
      simp only [decide_eq_true_eq]
      intro heq
      rw [Option.some.inj heq] at hid
      exact hne hid

/-- Of a reservation that can be released by its id, and that no other has the id of, the manager holds
that very one. -/
theorem Accounted.reservation? (h : l.Accounted) (sound : l.Sound) {g : Grant} (hg : g ∈ l.outstanding) :
    l.manager.reservation? g.reservation.reservationID = some g.reservation := by
  obtain ⟨rm, hrelease, -⟩ := h.released g hg
  cases hx : l.manager.reservation? g.reservation.reservationID with
  | none =>
    rw [ResourceManager.releaseResources_eq_none.mpr hx] at hrelease
    cases hrelease
  | some x =>
    obtain ⟨hmem, hid⟩ := Keyed.mem_of_lookup hx
    obtain ⟨g', hg', rfl⟩ := sound.held x hmem
    rw [List.inj_on_of_nodup_map h.ids hg' hg hid]

/-- What is held under its id can be released by it, and then no more. -/
theorem released_of_reservation? (sound : l.Sound) {g : Grant}
    (hx : l.manager.reservation? g.reservation.reservationID = some g.reservation) : ∃ rm,
    l.manager.releaseResources g.reservation.reservationID = some rm ∧
      rm.releaseResources g.reservation.reservationID = none := by
  obtain ⟨-, hknown, -⟩ := call_release sound hx
  obtain ⟨rm, hrelease, -, -, -, -, reservations⟩ := ResourceManager.releaseResources_spec hx hknown
  refine ⟨rm, hrelease, ResourceManager.releaseResources_eq_none.mpr ?_⟩
  rw [ResourceManager.reservation?, reservations, Keyed.lookup_remove, if_pos rfl]

/-- The ids stay distinct if and only if the task has no reservation of the second. -/
theorem Sound.ids_append (sound : l.Sound)
    (ids : (l.outstanding.map fun g => g.reservation.reservationID).Nodup) (taskID agentID : Text)
    (requirements : Requirements) (unix : Int) :
    ((l.outstanding ++ [Grant.mk (ResourceManager.reserve taskID agentID requirements unix) unix]).map
        fun g => g.reservation.reservationID).Nodup ↔
      ∀ g ∈ l.outstanding, g.reservation.taskID = taskID → g.second ≠ unix := by
  rw [List.map_append, List.map_singleton, List.nodup_append]
  constructor
  · rintro ⟨-, -, hfresh⟩ g hg htask hsecond
    refine hfresh _ (List.mem_map_of_mem hg) _ List.mem_cons_self ?_
    rw [sound.named g hg, htask, hsecond]
    rfl
  · refine fun hfresh => ⟨ids, List.nodup_singleton _, fun id hid id' hid' heq => ?_⟩
    obtain ⟨g, hg, rfl⟩ := List.mem_map.mp hid
    rw [List.mem_singleton.mp hid', sound.named g hg] at heq
    obtain ⟨htask, hsecond⟩ := reservationID_inj.mp heq
    exact hfresh g hg htask hsecond

/-- What was granted before keeps its id, and the new reservation is held under its own. -/
theorem Accounted.reservation?_put (h : l.Accounted) (sound : l.Sound) {taskID agentID : Text}
    {requirements : Requirements} {unix : Int}
    (hfresh : ∀ g ∈ l.outstanding, g.reservation.taskID = taskID → g.second ≠ unix) {g : Grant}
    (hg : g ∈ l.outstanding ++ [Grant.mk (ResourceManager.reserve taskID agentID requirements unix) unix]) :
    (l.manager.putReservation (ResourceManager.reserve taskID agentID requirements unix)).reservation?
      g.reservation.reservationID = some g.reservation := by
  rw [ResourceManager.reservation?, ResourceManager.putReservation, Keyed.lookup_put]
  rcases List.mem_append.mp hg with hg | hg
  · have hne : ¬(ResourceManager.reserve taskID agentID requirements unix).reservationID =
        g.reservation.reservationID := by
      intro heq
      rw [sound.named g hg] at heq
      obtain ⟨htask, hsecond⟩ := reservationID_inj.mp heq
      exact hfresh g hg htask.symm hsecond.symm
    rw [if_neg hne]
    exact h.reservation? sound hg
  · rw [List.mem_singleton.mp hg, if_pos rfl]

theorem Accounted.allocate_iff (sound : l.Sound) (h : l.Accounted) (taskID agentID : Text)
    (requirements : Requirements) (unix : Int) :
    (l.call (.allocate taskID agentID requirements unix)).Accounted ↔
      l.Apart (.allocate taskID agentID requirements unix) := by
  have after := sound.call (.allocate taskID agentID requirements unix)
  cases halloc : l.manager.allocateResources taskID agentID requirements unix with
  | none =>
    have hcall : l.call (.allocate taskID agentID requirements unix) = l := by
      rw [Ledger.call, halloc]
    have havailable : ¬l.manager.hasAvailableResources requirements.toResourceUsage = true := by
      intro havailable
      rw [ResourceManager.allocateResources, if_pos havailable] at halloc
      cases halloc
    rw [hcall]
    exact ⟨fun _ hgranted => absurd hgranted havailable, fun _ => h⟩
  | some result =>
    obtain ⟨x, manager⟩ := result
    have hcall : l.call (.allocate taskID agentID requirements unix) =
        ⟨manager, l.outstanding ++ [⟨x, unix⟩]⟩ := by
      rw [Ledger.call, halloc]
    rw [hcall] at after ⊢
    obtain ⟨havailable, rfl, rfl⟩ := ResourceManager.allocateResources_eq_some halloc
    obtain ⟨recorded, total, -, pool, reservations⟩ := ResourceManager.updateResourceUsage_spec
      (l.manager.putReservation (ResourceManager.reserve taskID agentID requirements unix)) agentID
      requirements.toResourceUsage
    have hids := sound.ids_append h.ids taskID agentID requirements unix
    constructor
    · exact fun haccounted _ => hids.mp haccounted.ids
    · intro hapart
      have hfresh := hapart havailable
      refine ⟨fun agentID' r => ?_, fun r => ?_, hids.mpr hfresh, fun g hg => ?_⟩
      · rw [used_append, ← h.usage agentID' r]
        exact recorded agentID' r
      · have := ResourceManager.hasAvailableResources_iff.mp havailable r
        rw [total, pool]
        exact this
      · refine released_of_reservation? after ?_
        dsimp only
        rw [ResourceManager.reservation?, reservations]
        exact h.reservation?_put sound hfresh hg

theorem Accounted.release (sound : l.Sound) (h : l.Accounted) (id : Text) :
    (l.call (.release id)).Accounted := by
  have after := sound.call (.release id)
  cases hx : l.manager.reservation? id with
  | none =>
    rw [Ledger.call, ResourceManager.releaseResources_eq_none.mpr hx]
    exact h
  | some x =>
    obtain ⟨hgranted, hknown, hid⟩ := call_release sound hx
    obtain ⟨manager, hrelease, recorded, total, -, pool, reservations⟩ :=
      ResourceManager.releaseResources_spec hx hknown
    have hcall : l.call (.release id) = Ledger.mk manager (l.outstanding.eraseP fun g =>
        l.manager.reservation? id = some g.reservation) := by
      rw [Ledger.call, hrelease]
    rw [hcall] at after ⊢
    have herased (g : Grant) : decide (l.manager.reservation? id = some g.reservation) = true ↔
        g.reservation = x := by
      rw [hx, decide_eq_true_eq, Option.some.injEq, eq_comm]
    refine ⟨fun agentID r => ?_, fun r => ?_, ?_, fun g hg => ?_⟩
    · rw [used_eraseP herased hgranted, ← h.usage agentID r]
      exact recorded agentID r
    · have := h.pool r
      have := x.resources.nonneg r
      rw [total, pool]
      linarith
    · exact h.ids.sublist ((List.eraseP_sublist).map _)
    · refine released_of_reservation? after ?_
      -- of the ids that are left none is the one that was released
      have hne : g.reservation.reservationID ≠ id := by
        obtain ⟨g', hg', hx'⟩ := hgranted
        obtain ⟨e, before, behind, -, he, hl, herase⟩ :=
          List.exists_of_eraseP (p := fun g => l.manager.reservation? id = some g.reservation) hg'
            ((herased g').mpr hx')
        dsimp only at hg
        rw [herase] at hg
        have hids := h.ids
        rw [hl, List.map_append, List.map_cons] at hids
        have hfresh := (List.nodup_cons.mp (List.nodup_middle.mp hids)).1
        rw [← List.map_append, (herased e).mp he, hid] at hfresh
        exact fun heq => hfresh (heq ▸ List.mem_map_of_mem hg)
      dsimp only
      rw [ResourceManager.reservation?, reservations, Keyed.lookup_remove, if_neg hne]
      exact h.reservation? sound (List.mem_of_mem_eraseP hg)

/-- A call keeps the accounts if and only if it is not granted for a task that holds a reservation of the
same second. -/
theorem Accounted.call_iff (sound : l.Sound) (h : l.Accounted) (c : Call) :
    (l.call c).Accounted ↔ l.Apart c := by
  cases c with
  | allocate taskID agentID requirements unix => exact h.allocate_iff sound taskID agentID requirements unix
  | release id => exact ⟨fun _ => trivial, fun _ => h.release sound id⟩

/-- The accounts are right in every state of a run if and only if no call in it is granted for a task
that holds a reservation of the same second. -/
theorem run_accounted (calls : List Call) :
    (∀ n, ((calls.take n).foldl call {}).Accounted) ↔ Along call Apart {} calls := by
  have sound (n : Nat) : ((calls.take n).foldl call {}).Sound :=
    List.foldlRecOn (calls.take n) call sound_empty fun _ h c _ => h.call c
  rw [← along_iff (I := fun l => l.Sound ∧ l.Accounted)
    (fun l c h => ⟨fun hc => (h.2.call_iff h.1 c).mp hc.2,
      fun hc => ⟨h.1.call c, (h.2.call_iff h.1 c).mpr hc⟩⟩) ⟨sound_empty, accounted_empty⟩]
  exact forall_congr' fun n => ⟨fun h => ⟨sound n, h⟩, fun h => h.2⟩

def oneCore : Requirements where
  agentID := []
  cpuUsage := 1
  nonneg r := by cases r <;> decide

/-- Two calls for a task in a second: the second reservation takes the place of the first. -/
def sameSecond : List Call :=
  [.allocate (ascii "task") (ascii "agent") oneCore 0, .allocate (ascii "task") (ascii "agent") oneCore 0]

theorem sameSecond_not_accounted : ¬∀ n, ((sameSecond.take n).foldl call {}).Accounted :=
  fun h => absurd (h 2).ids (by decide +kernel)

/-- One release of the id is all that can be made of it, and the share of the first stays. -/
example : ((sameSecond ++ [Call.release (reservationID (ascii "task") 0),
    Call.release (reservationID (ascii "task") 0)]).foldl call {}).manager.recorded (ascii "agent") .cpu =
      1 := by
  decide +kernel

end Ledger

end Ecco9.Orchestration
