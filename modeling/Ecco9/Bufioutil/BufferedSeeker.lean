import Ecco9.Library.Readers
import Ecco9.Library.Runs

/-! `BufferedSeeker` of `fs/util/bufioutil/buffer_seeker.go`. A call says how short the read of the source
in it is, and whether the source accepts a position. -/

namespace Ecco9.Bufioutil

open Ecco9.Library

structure BufferedSeeker (α : Type) where
  rs : ReadSeeker α
  br : Reader α

inductive Call
  | read (n : Nat) (c : Choice)
  | seek (offset whence : Int) (accepted : Bool)

inductive Answer (α : Type)
  | read (got : List α) (eof : Bool)
  /-- there is no position when it is refused -/
  | position (n : Option Nat)
  deriving DecidableEq

def minReadBufferSize : Nat := 16

def seekCurrent : Int := 1

section

variable {α : Type}

def newBufferedSeeker (rs : ReadSeeker α) (size : Int) : BufferedSeeker α where
  rs
  br :=
    { size := max size.toNat minReadBufferSize
      size_pos := Nat.lt_of_lt_of_le (by decide) (Nat.le_max_right ..) }

namespace BufferedSeeker

def read (b : BufferedSeeker α) (n : Nat) (c : Choice) : Answer α × BufferedSeeker α :=
  let ((got, eof), br, rs) := b.br.read b.rs n c
  (.read got eof, { rs, br })

def seek (b : BufferedSeeker α) (offset whence : Int) (accepted : Bool) :
    Answer α × BufferedSeeker α :=
  let offset := if whence = seekCurrent then wrap64 (offset - b.br.buffered) else offset
  match b.rs.seek offset whence accepted with
  | (none, rs) => (.position none, { b with rs })
  | (some n, rs) => (.position (some n), { rs, br := b.br.reset })

def step (b : BufferedSeeker α) : Call → Answer α × BufferedSeeker α
  | .read n c => b.read n c
  | .seek offset whence accepted => b.seek offset whence accepted

end BufferedSeeker

/-- The source without a buffer. -/
def unbuffered (rs : ReadSeeker α) : Call → Answer α × ReadSeeker α
  | .read n c => (.read (rs.read n c).1.1 (rs.read n c).1.2, (rs.read n c).2)
  | .seek offset whence accepted =>
    (.position (rs.seek offset whence accepted).1, (rs.seek offset whence accepted).2)

/-- The same call; how short a read is does not count. -/
inductive Alike : Call → Call → Prop
  | read (n : Nat) (c c' : Choice) : Alike (.read n c) (.read n c')
  | seek (offset whence : Int) (accepted : Bool) :
    Alike (.seek offset whence accepted) (.seek offset whence accepted)

/-- The source is ahead of the caller by what is buffered. -/
def Hides (b : BufferedSeeker α) (there : ReadSeeker α) : Prop := b.br.Ahead b.rs there

variable {b : BufferedSeeker α} {there : ReadSeeker α}

/-- The offset makes up for what is buffered. -/
theorem Hides.target (h : Hides b there) (offset whence : Int) :
    b.rs.target (if whence = seekCurrent then wrap64 (offset - b.br.buffered) else offset) whence =
      there.target offset whence := by
  rw [ReadSeeker.target, ReadSeeker.target, ReadSeeker.base, ReadSeeker.base, h.content]
  by_cases hcurrent : whence = seekCurrent
  · have hpos := h.pos
    rw [if_pos hcurrent, hcurrent]
    change some (wrap64 (b.rs.pos + wrap64 (offset - b.br.buffered))) = some (wrap64 (there.pos + offset))
    rw [wrap64_add_wrap64, Reader.buffered]
    congr 2
    omega
  · rw [if_neg hcurrent, if_neg (show ¬whence = 1 from hcurrent), if_neg (show ¬whence = 1 from hcurrent)]

theorem Hides.seek (h : Hides b there) (offset whence : Int) (accepted : Bool) :
    (b.seek offset whence accepted).1 = .position (there.seek offset whence accepted).1 ∧
      Hides (b.seek offset whence accepted).2 (there.seek offset whence accepted).2 := by
  unfold BufferedSeeker.seek ReadSeeker.seek
  dsimp only
  rw [h.target]
  cases there.target offset whence with
  | none => exact ⟨rfl, h⟩
  | some n =>
    by_cases haccepted : accepted ∧ 0 ≤ n
    · simp only [if_pos haccepted]
      exact ⟨trivial, h.content, List.nil_prefix, rfl, nofun⟩
    · simp only [if_neg haccepted]
      exact ⟨trivial, h⟩

theorem hides_follows : Follows BufferedSeeker.step (unbuffered (α := α)) Alike Hides where
  next := by
    intro b there h call
    cases call with
    | read n c =>
      obtain ⟨c', answer, next⟩ := Reader.Ahead.read h n c
      exact ⟨.read n c', .read n c c', congrArg (fun r : List α × Bool => Answer.read r.1 r.2) answer, next⟩
    | seek offset whence accepted =>
      obtain ⟨answer, next⟩ := h.seek offset whence accepted
      exact ⟨.seek offset whence accepted, .seek offset whence accepted, answer, next⟩

/-- Buffering does not show: what is answered to any calls the source answers without a buffer, with
other short reads. -/
theorem newBufferedSeeker_transparent (rs : ReadSeeker α) (size : Int) (calls : List Call) :
    ∃ calls', List.Forall₂ Alike calls calls' ∧
      answers BufferedSeeker.step (newBufferedSeeker rs size) calls = answers unbuffered rs calls' :=
  hides_follows.answers_eq (Reader.ahead_self rfl fun h => by cases h) calls

/-- A seek back from where the caller is, by too much, and one forward. -/
example : answers BufferedSeeker.step (newBufferedSeeker ⟨[1, 2, 3, 4, 5], 0⟩ 0)
    [.read 1 ⟨16, false⟩, .seek (-2) 1 true, .seek 1 1 true, .read 9 ⟨16, false⟩] =
      [.read [1] false, .position none, .position (some 2), .read [3, 4, 5] false] := by decide

end

end Ecco9.Bufioutil
