import Ecco9.Library.MachineInt
import Mathlib.Data.List.Infix
import Mathlib.Data.List.TakeDrop

/-! A source that is read from and sought in, which may read less than it is asked for, and a reader
that buffers what it reads of it. -/

namespace Ecco9.Library

/-- How many elements a source gives, and whether it says at once that they are the last. -/
structure Choice where
  count : Nat
  eof : Bool

structure ReadSeeker (α : Type) where
  content : List α
  pos : Nat

namespace ReadSeeker

section

variable {α : Type}

def rest (rs : ReadSeeker α) : List α := rs.content.drop rs.pos

/-- At the end there is nothing but the end; elsewhere there is at least one element, if one is asked
for, and the end may be told with the last of them. -/
def read (rs : ReadSeeker α) (n : Nat) (c : Choice) : (List α × Bool) × ReadSeeker α :=
  let got := rs.rest.take (min n (max 1 c.count))
  ((got, decide (n ≠ 0 ∧ rs.rest.length = 0 ∨ c.eof ∧ got.length = rs.rest.length)),
    { rs with pos := rs.pos + got.length })

/-- What an offset is relative to: the start, the position or the end. -/
def base (rs : ReadSeeker α) (whence : Int) : Option Int :=
  if whence = 0 then some 0
  else if whence = 1 then some rs.pos
  else if whence = 2 then some rs.content.length
  else none

def target (rs : ReadSeeker α) (offset whence : Int) : Option Int :=
  (rs.base whence).map fun base => wrap64 (base + offset)

/-- A position before the start is refused, as is any other that is not accepted. -/
def seek (rs : ReadSeeker α) (offset whence : Int) (accepted : Bool) : Option Nat × ReadSeeker α :=
  match rs.target offset whence with
  | none => (none, rs)
  | some n => if accepted ∧ 0 ≤ n then (some n.toNat, { rs with pos := n.toNat }) else (none, rs)

/-- What comes next can be read. -/
theorem read_prefix {rs : ReadSeeker α} {p : List α} {n : Nat} (h : p <+: rs.rest) (hp : p ≠ [])
    (hlen : p.length ≤ n) :
    rs.read n ⟨p.length, false⟩ = ((p, false), { rs with pos := rs.pos + p.length }) := by
  have hpos := List.length_pos_iff.mpr hp
  have hrest := h.length_le
  have hgot : rs.rest.take (min n (max 1 p.length)) = p := by
    rw [show min n (max 1 p.length) = p.length by omega]
    exact (List.prefix_iff_eq_take.mp h).symm
  have hthere : ¬(n ≠ 0 ∧ rs.rest.length = 0) := by omega
  rw [read, hgot, decide_eq_false (not_or.mpr ⟨hthere, nofun⟩)]

theorem read_zero (rs : ReadSeeker α) (c : Choice) :
    rs.read 0 c = (([], decide (c.eof ∧ 0 = rs.rest.length)), rs) := by
  rw [read, Nat.zero_min, List.take_zero]
  simp only [ne_eq, not_true_eq_false, false_and, false_or, List.length_nil, Nat.add_zero]

theorem read_end {rs : ReadSeeker α} (h : rs.rest = []) (n : Nat) (c : Choice) :
    rs.read n c = (([], decide (n ≠ 0 ∨ c.eof)), rs) := by
  rw [read, h]
  simp

/-- What is read comes next; the end is told only where it is. -/
theorem read_spec (rs : ReadSeeker α) {n : Nat} (hn : 0 < n) (c : Choice) :
    ∃ got eof, rs.read n c = ((got, eof), { rs with pos := rs.pos + got.length }) ∧ got <+: rs.rest ∧
      (got = [] → rs.rest = [] ∧ eof = true) ∧ (eof = true → got = rs.rest) := by
  refine ⟨_, _, rfl, List.take_prefix .., fun hnil => ?_, fun heof => ?_⟩
  · rw [List.take_eq_nil_iff] at hnil
    have hrest := hnil.resolve_left (by omega)
    exact ⟨hrest, by simp [hrest]; omega⟩
  · rcases of_decide_eq_true heof with ⟨-, hrest⟩ | ⟨-, hlen⟩
    · rw [List.length_eq_zero_iff.mp hrest, List.take_nil]
    · exact (List.take_prefix ..).eq_of_length hlen

end

end ReadSeeker

/-! ### The buffered reader -/

/-- What has been read and not yet given out, and whether the end was told with it. -/
structure Reader (α : Type) where
  size : Nat
  size_pos : 0 < size
  unread : List α := []
  err : Bool := false

namespace Reader

section

variable {α : Type}

def buffered (br : Reader α) : Nat := br.unread.length

/-- Gives out what is buffered. -/
def copy (br : Reader α) (n : Nat) : (List α × Bool) × Reader α :=
  ((br.unread.take n, false), { br with unread := br.unread.drop n })

/-- The error is told once. -/
def readErr (br : Reader α) : (List α × Bool) × Reader α := (([], br.err), { br with err := false })

def read (br : Reader α) (rs : ReadSeeker α) (n : Nat) (c : Choice) :
    (List α × Bool) × Reader α × ReadSeeker α :=
  if n = 0 then
    if br.buffered > 0 then (([], false), br, rs) else (br.readErr.1, br.readErr.2, rs)
  else if br.buffered = 0 then
    if br.err then (br.readErr.1, br.readErr.2, rs)
    -- what fills the buffer is not buffered
    else if br.size ≤ n then ((rs.read n c).1, br, (rs.read n c).2)
    else
      let (got, eof) := (rs.read br.size c).1
      let filled := { br with unread := got, err := eof }
      if got.length = 0 then (filled.readErr.1, filled.readErr.2, (rs.read br.size c).2)
      else ((filled.copy n).1, (filled.copy n).2, (rs.read br.size c).2)
  else ((br.copy n).1, (br.copy n).2, rs)

def reset (br : Reader α) : Reader α := { br with unread := [], err := false }

/-- The source is ahead of where the reader is, by what is buffered. -/
structure Ahead (br : Reader α) (rs there : ReadSeeker α) : Prop where
  content : rs.content = there.content
  unread : br.unread <+: there.rest
  pos : rs.pos = there.pos + br.unread.length
  err : br.err = true → rs.rest = []

variable {br : Reader α} {rs there : ReadSeeker α}

/-- With nothing buffered the source is where the reader is. -/
theorem Ahead.eq_of_nil (h : br.Ahead rs there) (hnil : br.unread = []) : rs = there := by
  obtain ⟨content, unread, pos, err⟩ := h
  rw [hnil] at pos
  cases rs
  cases there
  cases content
  cases pos
  rfl

theorem ahead_self (hnil : br.unread = []) (herr : br.err = true → rs.rest = []) : br.Ahead rs rs :=
  ⟨rfl, hnil ▸ List.nil_prefix, by rw [hnil]; rfl, herr⟩

/-- What is given out of the buffer is what comes next. -/
theorem Ahead.copy (h : br.Ahead rs there) (hne : br.unread ≠ []) {n : Nat} (hn : n ≠ 0) :
    ∃ c, (br.copy n).1 = (there.read n c).1 ∧ (br.copy n).2.Ahead rs (there.read n c).2 := by
  have hprefix : br.unread.take n <+: there.rest := (List.take_prefix ..).trans h.unread
  have hread := ReadSeeker.read_prefix hprefix (by simp [hn, hne]) (List.length_take_le n br.unread)
  refine ⟨⟨(br.unread.take n).length, false⟩, congrArg Prod.fst hread.symm, ?_⟩
  rw [hread]
  refine ⟨h.content, ?_, ?_, h.err⟩
  · obtain ⟨tail, htail⟩ := h.unread
    refine ⟨tail, ?_⟩
    change br.unread.drop n ++ tail = there.content.drop (there.pos + (br.unread.take n).length)
    have hsplit : br.unread ++ tail = br.unread.take n ++ (br.unread.drop n ++ tail) := by
      rw [← List.append_assoc, List.take_append_drop]
    rw [← List.drop_drop, ← ReadSeeker.rest, ← htail, hsplit, List.drop_left]
  · change rs.pos = there.pos + (br.unread.take n).length + (br.unread.drop n).length
    have := h.pos
    rw [List.length_take, List.length_drop]
    omega

theorem rest_advance (rs : ReadSeeker α) :
    ({ rs with pos := rs.pos + rs.rest.length } : ReadSeeker α).rest = [] := by
  rw [ReadSeeker.rest, ← List.drop_drop, ← ReadSeeker.rest, List.drop_length]

/-- What a buffered reader reads can be read of the source where the reader is. -/
theorem Ahead.read (h : br.Ahead rs there) (n : Nat) (c : Choice) :
    ∃ c', (br.read rs n c).1 = (there.read n c').1 ∧
      (br.read rs n c).2.1.Ahead (br.read rs n c).2.2 (there.read n c').2 := by
  unfold Reader.read
  by_cases hn : n = 0
  · rw [if_pos hn, hn]
    by_cases hbuf : br.buffered > 0
    · rw [if_pos hbuf]
      refine ⟨⟨0, false⟩, ?_⟩
      rw [ReadSeeker.read_zero]
      exact ⟨by simp, h⟩
    · rw [if_neg hbuf]
      have hnil : br.unread = [] := List.length_eq_zero_iff.mp (Nat.eq_zero_of_not_pos hbuf)
      obtain rfl := h.eq_of_nil hnil
      refine ⟨⟨0, br.err⟩, ?_⟩
      rw [ReadSeeker.read_zero]
      refine ⟨Prod.ext rfl ?_, ahead_self hnil nofun⟩
      cases herr : br.err with
      | true => simp [readErr, herr, h.err herr]
      | false => simp [readErr, herr]
  · rw [if_neg hn]
    by_cases hbuf : br.buffered = 0
    · rw [if_pos hbuf]
      have hnil : br.unread = [] := List.length_eq_zero_iff.mp hbuf
      obtain rfl := h.eq_of_nil hnil
      by_cases herr : br.err = true
      · rw [if_pos herr]
        refine ⟨c, ?_⟩
        rw [ReadSeeker.read_end (h.err herr)]
        exact ⟨by simp [readErr, herr, hn], ahead_self hnil nofun⟩
      rw [if_neg herr]
      by_cases hsize : br.size ≤ n
      · rw [if_pos hsize]
        exact ⟨c, rfl, ahead_self hnil fun h => absurd h herr⟩
      · -- the buffer is filled, and what is asked for is given out of it
        rw [if_neg hsize]
        obtain ⟨got, eof, hread, hprefix, hempty, hend⟩ := rs.read_spec br.size_pos c
        rw [hread]
        dsimp only
        by_cases hgot : got = []
        · obtain ⟨hrest, rfl⟩ := hempty hgot
          rw [if_pos (by rw [hgot]; rfl), hgot]
          refine ⟨c, ?_⟩
          rw [ReadSeeker.read_end hrest]
          exact ⟨by simp [readErr, hn], ahead_self rfl nofun⟩
        · rw [if_neg (by rwa [List.length_eq_zero_iff])]
          have filled : Ahead { br with unread := got, err := eof }
              { rs with pos := rs.pos + got.length } rs :=
            ⟨rfl, hprefix, rfl, fun heof => by rw [hend heof]; exact rest_advance rs⟩
          exact filled.copy hgot hn
    · rw [if_neg hbuf]
      exact h.copy (fun hnil => hbuf (by rw [buffered, hnil]; rfl)) hn

end

end Reader

end Ecco9.Library
