import Ecco9.Library.Runs
import Ecco9.Library.Utf8
import Mathlib.Algebra.BigOperators.Group.List.Basic
import Mathlib.Algebra.GroupWithZero.Nat

/-! `RelayReader` of `server/internal/internal/syncs/line.go`, from when its writers are taken. A step
is one operation on a channel, on the destination or on the count, of a writer or of `WriteTo`. -/

namespace Ecco9.Syncs

open Ecco9.Library

inductive Call
  | write (p : Text)
  | writeString (s : Text)
  deriving DecidableEq

def Call.bytes : Call → Text
  | .write p => p
  | .writeString s => s

def stream (calls : List Call) : Text := calls.flatMap Call.bytes

/-- Where a writer is in a call. -/
inductive Phase
  | idle
  /-- `awaitTurn` has returned true -/
  | passed (call : Call)
  /-- in `Write`, before `w.q.n` is added to -/
  | written (p : Text)
  deriving DecidableEq

/-- What comes after the bytes are written: `WriteString` does not count them. -/
def Call.after : Call → Phase
  | .write p => .written p
  | .writeString _ => .idle

/-- A `relayWriter` that makes its calls in turn and is closed after them. -/
structure Writer where
  calls : List Call
  todo : List Call
  phase : Phase := .idle
  ready : Bool := false
  /-- its ticket is done -/
  done : Bool := false
  /-- the calls whose bytes have reached the destination -/
  out : List Call := []
  deriving DecidableEq

inductive Act
  | pass
  | refuse
  | write
  | count
  | close
  deriving DecidableEq

/-- A step of a writer, with the ticket ahead of it and the line closed or not: with what it writes to
the destination and what it adds to the count. -/
def Writer.act (w : Writer) (ahead closed : Bool) : Act → Option (Writer × Text × Nat)
  | .pass =>
    match w.phase, w.todo with
    | .idle, call :: todo =>
      if w.ready ∨ ahead then some ({ w with todo, phase := .passed call, ready := true }, [], 0)
      else none
    | _, _ => none
  | .refuse =>
    match w.phase, w.todo with
    | .idle, _ :: todo => if ¬w.ready ∧ closed then some ({ w with todo }, [], 0) else none
    | _, _ => none
  | .write =>
    match w.phase with
    | .passed call => some ({ w with phase := call.after, out := w.out ++ [call] }, call.bytes, 0)
    | _ => none
  | .count =>
    match w.phase with
    | .written p => some ({ w with phase := .idle }, [], p.length)
    | _ => none
  | .close =>
    if w.phase = .idle ∧ w.todo = [] ∧ ¬w.done then some ({ w with done := true }, [], 0) else none

inductive WriteTo
  | before
  /-- the line was not closed -/
  | checked
  | yielded
  | waiting
  | returned (n : Nat)
  deriving DecidableEq

/-- What `WriteTo` has returned. -/
def WriteTo.result : WriteTo → Option Nat
  | .returned n => some n
  | _ => none

structure RelayReader where
  writers : List Writer
  /-- `q.w` is not nil -/
  w : Bool := false
  /-- `q.t` is done -/
  t : Bool := false
  n : Nat := 0
  closedCh : Bool := false
  writeTo : WriteTo := .before
  dst : Text := []
  crashed : Bool := false
  deriving DecidableEq

inductive Event
  | writer (i : Nat) (act : Act)
  | check
  | yield
  | relay
  | returns
  | closeWithError
  deriving DecidableEq

namespace RelayReader

def new (calls : List (List Call)) : RelayReader where
  writers := calls.map fun todo => { calls := todo, todo }

/-- `Ready` of a writer: the ticket of the one before it is done. -/
def ahead (q : RelayReader) (i : Nat) : Bool :=
  match (q.writers.take i).getLast? with
  | none => q.t
  | some v => v.done

def step (q : RelayReader) (e : Event) : Option RelayReader :=
  if q.crashed then none
  else
    match e with
    | .writer i act =>
      match q.writers[i]? with
      | none => none
      | some w =>
        match w.act (q.ahead i) q.closedCh act with
        | none => none
        | some (w', p, k) =>
          -- the destination is nil before `WriteTo` has set it
          if act = .write ∧ ¬q.w then some { q with crashed := true }
          else some { q with writers := q.writers.set i w', dst := q.dst ++ p, n := q.n + k }
    | .check =>
      if q.writeTo = .before then
        some { q with writeTo := if q.closedCh then .returned 0 else .checked }
      else none
    | .yield => if q.writeTo = .checked then some { q with w := true, writeTo := .yielded } else none
    | .relay => if q.writeTo = .yielded then some { q with t := true, writeTo := .waiting } else none
    | .returns =>
      if q.writeTo = .waiting ∧ q.closedCh then some { q with writeTo := .returned q.n } else none
    | .closeWithError => some { q with closedCh := true }

end RelayReader

/-! ### What is wanted -/

/-- The bytes are those of the streams in their order, of each a first part, and of all up to the last
that has any the whole. -/
def Relayed (streams : List Text) (dst : Text) : Prop :=
  ∃ parts : List (Text × Text), parts.map Prod.fst = streams ∧ (∀ p ∈ parts, p.2 <+: p.1) ∧
    parts.Pairwise (fun p q => q.2 ≠ [] → p.2 = p.1) ∧ dst = parts.flatMap Prod.snd

/-- The bytes are in order, and as many as `WriteTo` has returned once it has. -/
def RelayReader.Meets (q : RelayReader) (calls : List (List Call)) : Prop :=
  Relayed (calls.map stream) q.dst ∧ ∀ n, q.writeTo.result = some n → n = q.dst.length

/-- What a call leaves out of the count. -/
def Call.uncounted : Call → Nat
  | .write _ => 0
  | .writeString s => s.length

/-- What a writer has written and not counted. -/
def Writer.uncounted (w : Writer) : Nat :=
  (w.out.map Call.uncounted).sum +
    match w.phase with
    | .written p => p.length
    | _ => 0

/-- What a writer is still to write of a call that `awaitTurn` has let through. -/
def Writer.pending (w : Writer) : Text :=
  match w.phase with
  | .passed call => call.bytes
  | _ => []

/-- A step that does not go wrong: a writer gets ready only while the line is open, is closed in its turn
(or behind the close of the line), and begins to write bytes only before `WriteTo` has returned; which
returns when there are no bytes to be written or counted. -/
def RelayReader.InTurn (q : RelayReader) : Event → Prop
  | .writer i .pass => ∀ w ∈ q.writers[i]?, (w.ready ∨ q.closedCh = false) ∧
    ∀ call ∈ w.todo.head?, call.bytes = [] ∨ q.writeTo.result = none
  | .writer i .close => q.ahead i ∨ q.closedCh
  | .returns => ∀ w ∈ q.writers, w.uncounted = 0 ∧ w.pending = []
  | _ => True

instance (q : RelayReader) : ∀ e, Decidable (q.InTurn e)
  | .writer i .pass => inferInstanceAs (Decidable (∀ w ∈ q.writers[i]?,
    (w.ready ∨ q.closedCh = false) ∧ ∀ call ∈ w.todo.head?, call.bytes = [] ∨ q.writeTo.result = none))
  | .writer i .close => inferInstanceAs (Decidable (q.ahead i ∨ q.closedCh))
  | .returns => inferInstanceAs (Decidable (∀ w ∈ q.writers, w.uncounted = 0 ∧ w.pending = []))
  | .writer _ .refuse | .writer _ .write | .writer _ .count => isTrue trivial
  | .check | .yield | .relay | .closeWithError => isTrue trivial

/-! ### Writers -/

section

variable {w w' : Writer} {ahead closed t : Bool} {act : Act} {p : Text} {k : Nat}

theorem stream_append (l l' : List Call) : stream (l ++ l') = stream l ++ stream l' :=
  List.flatMap_append

theorem stream_cons (call : Call) (l : List Call) : stream (call :: l) = call.bytes ++ stream l :=
  List.flatMap_cons

theorem stream_singleton (call : Call) : stream [call] = call.bytes := List.append_nil _

/-- What holds of a writer, with the line closed and the relay begun or not. -/
structure Writer.Sound (w : Writer) (closed t : Bool) : Prop where
  /-- no call is left out while the line is open, or once the writer is ready -/
  rest : closed = false ∨ w.ready → stream w.out ++ w.pending ++ stream w.todo = stream w.calls
  fresh : w.ready = false → w.phase = .idle ∧ w.out = []
  ended : w.done → w.phase = .idle ∧ w.todo = []
  begun : t = false → w.ready = false

/-- A writer that has nothing left to do, with all its bytes written. -/
structure Writer.Complete (w : Writer) : Prop where
  idle : w.phase = .idle
  todo : w.todo = []
  out : stream w.out = stream w.calls

theorem Writer.Sound.complete (h : w.Sound closed t) (hdone : w.done) (hopen : closed = false) :
    w.Complete := by
  obtain ⟨hidle, htodo⟩ := h.ended hdone
  have hrest := h.rest (.inl hopen)
  rw [Writer.pending, hidle, htodo] at hrest
  exact ⟨hidle, htodo, by simpa [stream] using hrest⟩

/-- What the steps of a writer have in common. -/
structure Writer.Acts (w : Writer) (act : Act) (ahead closed : Bool) (w' : Writer) (p : Text) (k : Nat) :
    Prop where
  calls : w'.calls = w.calls
  out : stream w'.out = stream w.out ++ p
  counted : k + w'.uncounted = w.uncounted + p.length
  passed : w'.ready → w.ready ∨ act = .pass ∧ ahead
  closes : w'.done → w.done ∨ act = .close
  stays : w.done → w'.done
  complete : w.Complete → w'.Complete
  writes : p ≠ [] → w.pending = p
  pending : w'.pending = w.pending ∨ w'.pending = [] ∨
    act = .pass ∧ ∃ call todo, w.todo = call :: todo ∧ w'.pending = call.bytes

/-- What a writer can do, and when. -/
inductive Writer.Does (w : Writer) (ahead closed : Bool) : Act → Writer → Text → Nat → Prop
  | pass {call : Call} {todo : List Call} (idle : w.phase = .idle) (next : w.todo = call :: todo)
    (turn : w.ready ∨ ahead) :
    Does w ahead closed .pass { w with todo, phase := .passed call, ready := true } [] 0
  | refuse {call : Call} {todo : List Call} (idle : w.phase = .idle) (next : w.todo = call :: todo)
    (closes : ¬w.ready ∧ closed) : Does w ahead closed .refuse { w with todo } [] 0
  | write {call : Call} (passed : w.phase = .passed call) :
    Does w ahead closed .write { w with phase := call.after, out := w.out ++ [call] } call.bytes 0
  | count {p : Text} (written : w.phase = .written p) :
    Does w ahead closed .count { w with phase := .idle } [] p.length
  | close (ends : w.phase = .idle ∧ w.todo = [] ∧ ¬w.done) :
    Does w ahead closed .close { w with done := true } [] 0

theorem Writer.does (hact : w.act ahead closed act = some (w', p, k)) :
    w.Does ahead closed act w' p k := by
  cases act with
  | pass =>
    simp only [Writer.act] at hact
    split at hact
    · split at hact <;> cases hact
      exact .pass ‹_› ‹_› ‹_›
    · cases hact
  | refuse =>
    simp only [Writer.act] at hact
    split at hact
    · split at hact <;> cases hact
      exact .refuse ‹_› ‹_› ‹_›
    · cases hact
  | write =>
    simp only [Writer.act] at hact
    split at hact <;> cases hact
    exact .write ‹_›
  | count =>
    simp only [Writer.act] at hact
    split at hact <;> cases hact
    exact .count ‹_›
  | close =>
    simp only [Writer.act] at hact
    split at hact <;> cases hact
    exact .close ‹_›

/-- Behind a call there is nothing to be written of it. -/
theorem pending_after (w : Writer) (call : Call) (out : List Call) :
    Writer.pending { w with phase := call.after, out } = [] := by
  cases call <;> rfl

theorem Writer.Does.acts (does : w.Does ahead closed act w' p k) : w.Acts act ahead closed w' p k := by
  cases does with
  | @pass call todo idle next turn =>
    exact {
      calls := rfl
      out := (List.append_nil _).symm
      counted := by simp [Writer.uncounted, idle]
      passed := fun _ => turn.imp_right fun hahead => ⟨rfl, hahead⟩
      closes := .inl
      stays := id
      complete := fun h => by cases next.symm.trans h.todo
      writes := fun h => absurd rfl h
      pending := .inr (.inr ⟨rfl, call, todo, next, rfl⟩) }
  | refuse idle next closes =>
    exact {
      calls := rfl
      out := (List.append_nil _).symm
      counted := Nat.zero_add _
      passed := .inl
      closes := .inl
      stays := id
      complete := fun h => by cases next.symm.trans h.todo
      writes := fun h => absurd rfl h
      pending := .inl rfl }
  | @write call passed =>
    exact {
      calls := rfl
      out := (stream_append ..).trans (congrArg _ (stream_singleton _))
      counted := by
        rw [Writer.uncounted, Writer.uncounted, passed, List.map_append, List.sum_append]
        cases call <;> simp [Call.after, Call.uncounted, Call.bytes]
      passed := .inl
      closes := .inl
      stays := id
      complete := fun h => by cases passed.symm.trans h.idle
      writes := fun _ => by rw [Writer.pending, passed]
      pending := .inr (.inl (pending_after ..)) }
  | count written =>
    exact {
      calls := rfl
      out := (List.append_nil _).symm
      counted := by simp [Writer.uncounted, written, Nat.add_comm]
      passed := .inl
      closes := .inl
      stays := id
      complete := fun h => by cases written.symm.trans h.idle
      writes := fun h => absurd rfl h
      pending := .inr (.inl rfl) }
  | close ends =>
    exact {
      calls := rfl
      out := (List.append_nil _).symm
      counted := Nat.zero_add _
      passed := .inl
      closes := fun _ => .inr rfl
      stays := fun _ => rfl
      complete := fun h => ⟨h.idle, h.todo, h.out⟩
      writes := fun h => absurd rfl h
      pending := .inl rfl }

theorem Writer.Sound.step (h : w.Sound closed t) (does : w.Does ahead closed act w' p k)
    (hready : act = .pass → w.ready ∨ closed = false) (ht : ahead → closed = false → t) :
    w'.Sound closed t := by
  obtain ⟨rest, fresh, ended, begun⟩ := h
  cases does with
  | pass idle next turn =>
    refine ⟨fun _ => ?_, nofun, fun hdone => ?_, fun hnot => ?_⟩
    · have hrest := rest (hready rfl).symm
      rw [Writer.pending, idle, next, stream_cons, List.append_nil] at hrest
      rw [← hrest, Writer.pending, List.append_assoc]
    · cases next.symm.trans (ended hdone).2
    · rcases hready rfl with hready | hopen
      · cases hready.symm.trans (begun hnot)
      · rcases turn with hready | hahead
        · cases hready.symm.trans (begun hnot)
        · cases (ht hahead hopen).symm.trans hnot
  | refuse idle next closes =>
    refine ⟨fun hor => ?_, fresh, fun hdone => ?_, begun⟩
    · rcases hor with hopen | hready
      · cases hopen.symm.trans closes.2
      · exact absurd hready closes.1
    · cases next.symm.trans (ended hdone).2
  | write passed =>
    refine ⟨fun hor => ?_, fun hnot => ?_, fun hdone => ?_, begun⟩
    · have hrest := rest hor
      rw [Writer.pending, passed] at hrest
      rw [stream_append, stream_singleton, pending_after, List.append_nil]
      exact hrest
    · cases passed.symm.trans (fresh hnot).1
    · cases passed.symm.trans (ended hdone).1
  | count written =>
    refine ⟨fun hor => ?_, fun hnot => ⟨rfl, (fresh hnot).2⟩, fun hdone => ⟨rfl, (ended hdone).2⟩, begun⟩
    have hrest := rest hor
    rw [Writer.pending, written] at hrest
    exact hrest
  | close ends => exact ⟨rest, fresh, fun _ => ⟨ends.1, ends.2.1⟩, begun⟩

end

/-! ### All writers -/

namespace RelayReader

section

variable {calls : List (List Call)} {q q' : RelayReader}

/-- What holds between the steps. -/
structure Ordered (calls : List (List Call)) (q : RelayReader) : Prop where
  calls : q.writers.map Writer.calls = calls
  sound : ∀ w ∈ q.writers, w.Sound q.closedCh q.t
  order : q.writers.Pairwise fun v w => w.ready → v.Complete
  /-- while the line is open the tickets are done in turn -/
  turns : q.closedCh = false → q.writers.Pairwise (fun v w => w.done → v.done) ∧
    ∀ w ∈ q.writers, w.done → q.t
  dst : q.dst = q.writers.flatMap fun w => stream w.out
  count : q.n + (q.writers.map Writer.uncounted).sum = q.dst.length
  begun : q.writeTo ∈ [WriteTo.before, .checked, .yielded] → q.t = false
  returned : ∀ n, q.writeTo.result = some n → n = q.dst.length ∧ ∀ w ∈ q.writers, w.pending = []

theorem ordered_new (calls : List (List Call)) : (new calls).Ordered calls where
  calls := by
    rw [new, List.map_map]
    exact List.map_id calls
  sound := by
    refine List.forall_mem_map.mpr fun todo _ => ⟨fun _ => rfl, fun _ => ⟨rfl, rfl⟩, nofun, fun _ => rfl⟩
  order := List.pairwise_map.mpr (List.pairwise_of_forall fun _ _ => nofun)
  turns := fun _ => ⟨List.pairwise_map.mpr (List.pairwise_of_forall fun _ _ => nofun),
    List.forall_mem_map.mpr fun _ _ => nofun⟩
  dst := by simp [new, stream, List.flatMap_map]
  count := by simp [new, Function.comp_def, Writer.uncounted]
  begun := fun _ => rfl
  returned := nofun

/-- While the line is open, the ticket ahead is done only when all those ahead are. -/
theorem Ordered.ahead (h : q.Ordered calls) (hopen : q.closedCh = false) {i : Nat}
    (hahead : q.ahead i = true) : q.t ∧ ∀ v ∈ q.writers.take i, v.done := by
  obtain ⟨turns, began⟩ := h.turns hopen
  rw [RelayReader.ahead] at hahead
  rcases List.eq_nil_or_concat (q.writers.take i) with hnil | ⟨init, last, hlast⟩
  · rw [hnil] at hahead ⊢
    exact ⟨hahead, nofun⟩
  · rw [hlast, List.concat_eq_append, List.getLast?_concat] at hahead
    have hmem : last ∈ q.writers := List.mem_of_mem_take (by rw [hlast]; simp)
    have hpair := turns.sublist (List.take_sublist i q.writers)
    rw [hlast, List.concat_eq_append] at hpair ⊢
    refine ⟨began last hmem hahead, fun v hv => ?_⟩
    rcases List.mem_append.mp hv with hv | hv
    · exact (List.pairwise_append.mp hpair).2.2 v hv last List.mem_cons_self hahead
    · rw [List.mem_singleton.mp hv]
      exact hahead

theorem Ordered.writer (h : q.Ordered calls) {i : Nat} {act : Act} (inTurn : q.InTurn (.writer i act))
    {w w' : Writer} {p : Text} {k : Nat} (hw : q.writers[i]? = some w)
    (hact : w.act (q.ahead i) q.closedCh act = some (w', p, k)) :
    Ordered calls { q with writers := q.writers.set i w', dst := q.dst ++ p, n := q.n + k } := by
  obtain ⟨before, after, hplace, htake, hset⟩ := exists_party hw
  have does := Writer.does hact
  have acts := does.acts
  have hmem : w ∈ q.writers := List.mem_of_getElem? hw
  have ahead := fun hopen => h.ahead (i := i) hopen
  rw [htake] at ahead
  have hopen : act = .pass → w.ready ∨ q.closedCh = false := by
    rintro rfl
    exact (inTurn w hw).1
  have closes : act = .close → q.closedCh = false → q.t ∧ ∀ v ∈ before, v.done := by
    rintro rfl hopen
    exact ahead hopen (inTurn.resolve_right (by simp [hopen]))
  have sound' := (h.sound w hmem).step does hopen fun hahead hopen => (ahead hopen hahead).1
  have pending : ∀ n, q.writeTo.result = some n → p = [] ∧ w'.pending = [] := by
    intro n hn
    have hnone := (h.returned n hn).2 w hmem
    constructor
    · by_contra hp
      exact hp ((acts.writes hp).symm.trans hnone)
    · rcases acts.pending with hsame | hnil | ⟨rfl, call, todo, htodo, hcall⟩
      · exact hsame.trans hnone
      · exact hnil
      · rw [hcall]
        exact ((inTurn w hw).2 call (by rw [htodo]; rfl)).resolve_right (by simp [hn])
  obtain ⟨hcalls, sound, order, turns, dst, count, begun, returned⟩ := h
  rw [hplace] at hcalls sound order turns dst count returned
  have later : p = [] ∨ ∀ y ∈ after, stream y.out = [] := by
    by_cases hp : p = []
    · exact .inl hp
    · refine .inr fun y hy => ?_
      have hnot : y.ready = false := by
        by_contra hready
        have complete := (List.pairwise_cons.mp (List.pairwise_append.mp order).2.1).1 y hy
          (by simpa using hready)
        have hpending := acts.writes hp
        rw [Writer.pending, complete.idle] at hpending
        exact hp hpending.symm
      rw [((sound y (by simp [hy])).fresh hnot).2]
      rfl
  have counted := @sum_place _ before after _ _ _ _ _ acts.counted
  refine ⟨?_, ?_, ?_, ?_, ?_, ?_, begun, ?_⟩
  · rw [← hcalls]
    simp only [hset, List.map_append, List.map_cons, acts.calls]
  · rw [hset]
    exact forall_place sound sound'
  · rw [hset]
    refine pairwise_place order (fun x hx hxw hready => ?_) fun y _ hy hready => acts.complete (hy hready)
    rcases acts.passed hready with hready | ⟨hpass, hahead⟩
    · exact hxw hready
    · rcases hopen hpass with hready | hopen
      · exact hxw hready
      · exact (sound x (by simp [hx])).complete ((ahead hopen hahead).2 x hx) hopen
  · intro hopen
    rw [hset]
    refine ⟨pairwise_place (turns hopen).1 (fun x hx hxw hdone => ?_) fun y _ hy hdone =>
      acts.stays (hy hdone), forall_place (turns hopen).2 fun hdone => ?_⟩
    · rcases acts.closes hdone with hdone | hclose
      · exact hxw hdone
      · exact (closes hclose hopen).2 x hx
    · rcases acts.closes hdone with hdone | hclose
      · exact (turns hopen).2 w (by simp) hdone
      · exact (closes hclose hopen).1
  · rw [hset, dst]
    exact (flatMap_place (f := fun w : Writer => stream w.out) acts.out later).symm
  · rw [hset, List.length_append]
    dsimp only
    omega
  · intro n hn
    obtain ⟨hlen, hall⟩ := returned n hn
    obtain ⟨hp, hpending⟩ := pending n hn
    rw [hset, hp, List.append_nil]
    exact ⟨hlen, forall_place hall hpending⟩

theorem Ordered.step (h : q.Ordered calls) {e : Event} (inTurn : q.InTurn e) (hstep : q.step e = some q') :
    q'.Ordered calls := by
  unfold RelayReader.step at hstep
  split at hstep
  · cases hstep
  cases e with
  | writer i act =>
    dsimp only at hstep
    split at hstep
    · cases hstep
    · rename_i w hw
      split at hstep
      · cases hstep
      · rename_i w' p k hact
        split at hstep <;> cases hstep
        · exact ⟨h.calls, h.sound, h.order, h.turns, h.dst, h.count, h.begun, h.returned⟩
        · exact h.writer inTurn hw hact
  | check =>
    dsimp only at hstep
    split at hstep <;> cases hstep
    rename_i hbefore
    have hnot := h.begun (by simp [hbefore])
    have fresh := fun w hw => (h.sound w hw).fresh ((h.sound w hw).begun hnot)
    refine ⟨h.calls, h.sound, h.order, h.turns, h.dst, h.count, fun _ => hnot, fun n hn => ?_⟩
    dsimp only at hn
    split at hn <;> cases hn
    constructor
    · rw [h.dst, List.flatMap_eq_nil_iff.mpr fun w hw => by rw [(fresh w hw).2]; rfl]
      rfl
    · intro w hw
      rw [Writer.pending, (fresh w hw).1]
  | yield =>
    dsimp only at hstep
    split at hstep <;> cases hstep
    rename_i hchecked
    exact ⟨h.calls, h.sound, h.order, h.turns, h.dst, h.count, fun _ => h.begun (by simp [hchecked]), nofun⟩
  | relay =>
    dsimp only at hstep
    split at hstep <;> cases hstep
    refine ⟨h.calls, fun w hw => ?_, h.order, fun hopen => ⟨(h.turns hopen).1, fun _ _ _ => rfl⟩, h.dst,
      h.count, by simp, nofun⟩
    exact ⟨(h.sound w hw).rest, (h.sound w hw).fresh, (h.sound w hw).ended, nofun⟩
  | returns =>
    dsimp only at hstep
    split at hstep <;> cases hstep
    refine ⟨h.calls, h.sound, h.order, h.turns, h.dst, h.count, by simp, fun n hn => ?_⟩
    cases hn
    have hnone : (q.writers.map Writer.uncounted).sum = 0 :=
      List.sum_eq_zero (List.forall_mem_map.mpr fun w hw => (inTurn w hw).1)
    have := h.count
    exact ⟨by dsimp only; omega, fun w hw => (inTurn w hw).2⟩
  | closeWithError =>
    cases hstep
    refine ⟨h.calls, fun w hw => ?_, h.order, nofun, h.dst, h.count, h.begun, h.returned⟩
    exact ⟨fun hor => (h.sound w hw).rest (hor.imp_left nofun), (h.sound w hw).fresh, (h.sound w hw).ended,
      (h.sound w hw).begun⟩

theorem Ordered.meets (h : q.Ordered calls) : q.Meets calls := by
  refine ⟨⟨q.writers.map fun w => (stream w.calls, stream w.out), ?_, ?_, ?_, ?_⟩, fun n hn =>
    (h.returned n hn).1⟩
  · rw [← h.calls, List.map_map, List.map_map]
    rfl
  · refine List.forall_mem_map.mpr fun w hw => ?_
    by_cases hready : w.ready
    · rw [← (h.sound w hw).rest (.inr hready), List.append_assoc]
      exact List.prefix_append ..
    · rw [((h.sound w hw).fresh (by simpa using hready)).2]
      exact List.nil_prefix
  · refine List.pairwise_map.mpr (h.order.imp_of_mem fun {v w} _ hw hvw hout => ?_)
    refine (hvw ?_).out
    by_contra hready
    refine hout ?_
    rw [((h.sound w hw).fresh (by simpa using hready)).2]
    rfl
  · rw [h.dst, List.flatMap_map]

/-- In every run without a step that goes wrong the bytes are those of the writers in turn, and
`WriteTo` returns their number. -/
theorem run_relays {events : List Event} (inTurn : AlongM step InTurn (new calls) events)
    (run : events.foldlM step (new calls) = some q) : q.Meets calls :=
  (AlongM.foldlM (fun _ _ _ h inTurn hstep => Ordered.step h inTurn hstep) inTurn run
    (ordered_new calls)).meets

end

/-- Two writers take their turns; the line is closed before the second one has written all. -/
def turns : List Event :=
  [.check, .yield, .relay, .writer 0 .pass, .writer 0 .write, .writer 0 .count, .writer 0 .close,
    .writer 1 .pass, .writer 1 .write, .writer 1 .count, .closeWithError, .returns]

theorem turns_meet : ∃ q,
    turns.foldlM step (new [[.write [1]], [.write [2], .writeString [3]]]) = some q ∧
      q.Meets [[.write [1]], [.write [2], .writeString [3]]] := by
  obtain ⟨q, run⟩ : ∃ q, turns.foldlM step (new [[.write [1]], [.write [2], .writeString [3]]]) = some q :=
    Option.isSome_iff_exists.mp (by decide)
  exact ⟨q, run, run_relays (by decide) run⟩

/-- What `WriteString` writes is not in the count. -/
theorem string_uncounted : ∃ q, [Event.check, .yield, .relay, .writer 0 .pass, .writer 0 .write,
    .closeWithError, .returns].foldlM step (new [[.writeString [1]]]) = some q ∧
      ¬q.Meets [[.writeString [1]]] :=
  ⟨_, rfl, fun h => absurd (h.2 0 rfl) (by decide)⟩

end RelayReader

end Ecco9.Syncs
