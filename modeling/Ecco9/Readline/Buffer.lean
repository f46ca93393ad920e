import Mathlib.Algebra.GroupWithZero.Nat
import Mathlib.Algebra.Ring.Int.Defs
import Ecco9.Library.ArrayLists
import Ecco9.Library.Runs
import Mathlib.Logic.Function.Iterate

/-! The line buffer of `readline/buffer.go`, but for what it prints. -/

namespace Ecco9.Readline

open Ecco9.Library

/-- `rune` -/
abbrev Rune := Int

def space : Rune := 32

/-- The lists of the buffer, the widths of runes and of strings, and the width of a line. -/
structure Terminal where
  runes : ArrayList Rune
  bools : ArrayList Bool
  runeWidth : Rune → Int
  stringWidth : List Rune → Int
  lineWidth : Int
  narrow : ∀ r, 0 ≤ runeWidth r ∧ runeWidth r ≤ 2
  wide : 2 ≤ lineWidth

structure Buffer (t : Terminal) where
  displayPos : Int := 0
  pos : Int := 0
  buf : t.runes.Carrier := t.runes.empty
  /-- whether there is a column left free at the end of a line -/
  lineHasSpace : t.bools.Carrier := t.bools.empty

/-- `string(r)`, as one rune again -/
def string (r : Rune) : Rune :=
  if 0 ≤ r ∧ r < 0xD800 ∨ 0xDFFF < r ∧ r ≤ 0x10FFFF then r else 0xFFFD

namespace Buffer

variable {t : Terminal} (b : Buffer t)

def size : Int := t.runes.size b.buf

def get (i : Int) : Option Rune := t.runes.get b.buf i

def getLineSpacing (line : Int) : Bool := (t.bools.get b.lineHasSpace line).getD false

/-- The runes from a position on. -/
def runesFrom (n : Int) : List Rune :=
  (List.range (b.size - n).toNat).map fun k => (b.get (n + k)).getD 0

def stringN (n : Int) : List Rune := (b.runesFrom n).map string

def displaySize : Int :=
  ((List.range b.size.toNat).filterMap fun i => (b.get i).map t.runeWidth).sum

/-! ### Drawing -/

/-- How many runes have their bytes in `countRemainingLineWidth`. -/
def countRemainingLineWidth (t : Terminal) (place : Int) : List Rune → Nat
  | [] => 0
  | r :: rs =>
    if place + t.runeWidth r ≤ t.lineWidth then
      countRemainingLineWidth t (place + t.runeWidth r) rs + 1
    else 0

/-- The variables of the loop over the other lines. -/
structure Lines (t : Terminal) where
  totalLines : Int := 0
  displayLength : Int := 0
  lineLength : Int
  lineHasSpace : t.bools.Carrier

/-- One rune of the other lines; `line` is the line of the cursor. -/
def Lines.draw (line : Int) (l : Lines t) (c : Rune) : Lines t :=
  let width := t.runeWidth c
  if l.displayLength = 0 ∨
      (l.displayLength + width).tmod t.lineWidth < l.displayLength.tmod t.lineWidth then
    { totalLines := l.totalLines + 1
      displayLength := l.displayLength + width
      lineLength := width
      lineHasSpace :=
        if l.displayLength = 0 then l.lineHasSpace
        else t.bools.set l.lineHasSpace (line + l.totalLines) (l.lineLength ≠ t.lineWidth) }
  else
    { l with
      displayLength := l.displayLength + width
      lineLength := l.lineLength + width }

def drawRemaining : Buffer t :=
  let place := if b.pos > 0 then b.displayPos.tmod t.lineWidth else 0
  let remainingText := b.stringN b.pos
  let currLineLength := countRemainingLineWidth t place (b.runesFrom b.pos)
  let currLineSpace := t.stringWidth (remainingText.take currLineLength)
  let remLength := t.stringWidth remainingText
  let line := b.displayPos.tdiv t.lineWidth
  let lineHasSpace :=
    if currLineSpace ≠ t.lineWidth - place ∧ currLineSpace ≠ remLength then
      t.bools.set b.lineHasSpace line true
    else if currLineSpace ≠ t.lineWidth - place then t.bools.remove b.lineHasSpace line
    else t.bools.set b.lineHasSpace line false
  if remLength > currLineSpace then
    let lines := (remainingText.drop currLineLength).foldl (Lines.draw line)
      { lineLength := currLineSpace, lineHasSpace }
    { b with lineHasSpace := lines.lineHasSpace }
  else { b with lineHasSpace }

theorem drawRemaining_eq : ∃ lineHasSpace, b.drawRemaining = { b with lineHasSpace } := by
  unfold drawRemaining
  extract_lets
  split <;> exact ⟨_, rfl⟩

/-! ### Moving -/

def moveLeft : Buffer t :=
  if b.pos > 0 then
    match b.get (b.pos - 1) with
    | some r =>
      let skipped := b.displayPos.tmod t.lineWidth = 0 ∧
        b.getLineSpacing (b.displayPos.tdiv t.lineWidth - 1)
      { b with
        pos := b.pos - 1
        displayPos := (if skipped then b.displayPos - 1 else b.displayPos) - t.runeWidth r }
    | none => b
  else b

def moveRight : Buffer t :=
  if b.pos < b.size then
    match b.get b.pos with
    | some r =>
      let rLength := t.runeWidth r
      let hasSpace := b.getLineSpacing (b.displayPos.tdiv t.lineWidth)
      let displayPos := b.displayPos + rLength
      { b with
        pos := b.pos + 1
        displayPos :=
          if displayPos.tmod t.lineWidth = 0 then displayPos
          else if (displayPos - rLength).tmod t.lineWidth = t.lineWidth - 1 ∧ hasSpace then displayPos + 1
          else if t.bools.size b.lineHasSpace > 0 ∧ displayPos.tmod t.lineWidth = t.lineWidth - 1 ∧
            hasSpace then displayPos + 1
          else displayPos }
    | none => b
  else b

def moveToStart : Buffer t := if b.pos > 0 then { b with pos := 0, displayPos := 0 } else b

def moveToEnd : Buffer t :=
  if b.pos < b.size then { b with pos := b.size, displayPos := b.displaySize } else b

/-! ### Editing -/

/-- What `AddChar` makes of the display, a rune of double width that crosses the end of the line
included. -/
def advance (rLength : Int) (insert : Bool) : Int × t.bools.Carrier :=
  let displayPos := b.displayPos + rLength
  let mark (displayPos : Int) (hasSpace : Bool) :=
    if insert then t.bools.set b.lineHasSpace (displayPos.tdiv t.lineWidth - 1) hasSpace
    else t.bools.add b.lineHasSpace hasSpace
  if b.pos > 0 then
    if displayPos.tmod t.lineWidth = 0 then (displayPos, mark displayPos false)
    else if displayPos.tmod t.lineWidth < (displayPos - rLength).tmod t.lineWidth then
      (displayPos + 1, mark (displayPos + 1) true)
    else (displayPos, b.lineHasSpace)
  else (displayPos, b.lineHasSpace)

def addChar (r : Rune) (insert : Bool) : Buffer t :=
  let (displayPos, lineHasSpace) := b.advance (t.runeWidth r) insert
  let added : Buffer t :=
    { displayPos
      pos := b.pos + 1
      buf := if insert then t.runes.insert b.buf b.pos r else t.runes.add b.buf r
      lineHasSpace }
  if insert then added.drawRemaining else added

def add (r : Rune) : Buffer t := if b.pos = b.size then b.addChar r false else b.addChar r true

/-- What `Remove` makes of the display before it takes off the width of the rune. -/
def wipe (rLength : Int) : Int × t.bools.Carrier :=
  let line := b.displayPos.tdiv t.lineWidth - 1
  let hasSpace := b.getLineSpacing line
  if b.displayPos.tmod t.lineWidth = 0 then
    (if hasSpace then b.displayPos - 1 else b.displayPos,
      if b.displaySize.tmod t.lineWidth < (b.displaySize - rLength).tmod t.lineWidth then
        t.bools.remove b.lineHasSpace line
      else b.lineHasSpace)
  else if (b.displayPos - rLength).tmod t.lineWidth = 0 ∧ hasSpace then
    (b.displayPos - 1, if b.pos = b.size then t.bools.remove b.lineHasSpace line else b.lineHasSpace)
  else (b.displayPos, b.lineHasSpace)

def remove : Buffer t :=
  if b.size > 0 ∧ b.pos > 0 then
    match b.get (b.pos - 1) with
    | some r =>
      let rLength := t.runeWidth r
      let (displayPos, lineHasSpace) := b.wipe rLength
      let removed : Buffer t :=
        { displayPos := displayPos - rLength
          pos := b.pos - 1
          buf := t.runes.remove b.buf (b.pos - 1)
          lineHasSpace }
      if removed.pos < removed.size then removed.drawRemaining else removed
    | none => b
  else b

def delete : Buffer t :=
  if b.size > 0 ∧ b.pos < b.size then
    { b with buf := t.runes.remove b.buf b.pos }.drawRemaining
  else b

def deleteBefore : Buffer t := if b.pos > 0 then remove^[b.pos.toNat] b else b

def deleteRemaining : Buffer t :=
  if b.displaySize > 0 ∧ b.pos < b.displaySize then delete^[(b.size - b.pos).toNat] b else b

def replace (rs : List Rune) : Buffer t :=
  rs.foldl add { b with displayPos := 0, pos := 0, buf := t.runes.clear b.buf }

/-! ### Words -/

/-- A turn of the loops that go to the left over a word, by steps of one rune: the state is the buffer
and whether there has been a rune that is no space. -/
def wordTurn (single : Buffer t → Buffer t) (s : Buffer t × Bool) : (Buffer t × Bool) × Bool :=
  let (b, foundNonspace) := s
  let v := (b.get (b.pos - 1)).getD 0
  if v = space ∧ foundNonspace then (s, true)
  else
    let moved := single b
    ((moved, foundNonspace || v ≠ space), moved.pos = 0)

def rightTurn : Buffer t × Bool :=
  let moved := b.moveRight
  (moved, (moved.get moved.pos).getD 0 = space || moved.pos = moved.size)

variable (fuel : Nat)

def moveLeftWord : Option (Buffer t) :=
  if b.pos > 0 then (loop (wordTurn moveLeft) fuel (b, false)).map Prod.fst else some b

def moveRightWord : Option (Buffer t) :=
  if b.pos < b.size then loop rightTurn fuel b else some b

def deleteWord : Option (Buffer t) :=
  if b.size > 0 ∧ b.pos > 0 then (loop (wordTurn remove) fuel (b, false)).map Prod.fst else some b

end Buffer

/-! ### Runs -/

inductive Op
  | add (r : Rune)
  | remove
  | delete
  | deleteBefore
  | deleteRemaining
  | deleteWord
  | moveLeft
  | moveRight
  | moveLeftWord
  | moveRightWord
  | moveToStart
  | moveToEnd
  | replace (rs : List Rune)

/-- Without a result a loop has not ended in `fuel` turns. -/
def Buffer.exec {t : Terminal} (fuel : Nat) (b : Buffer t) : Op → Option (Buffer t)
  | .add r => some (b.add r)
  | .remove => some b.remove
  | .delete => some b.delete
  | .deleteBefore => some b.deleteBefore
  | .deleteRemaining => some b.deleteRemaining
  | .deleteWord => b.deleteWord fuel
  | .moveLeft => some b.moveLeft
  | .moveRight => some b.moveRight
  | .moveLeftWord => b.moveLeftWord fuel
  | .moveRightWord => b.moveRightWord fuel
  | .moveToStart => some b.moveToStart
  | .moveToEnd => some b.moveToEnd
  | .replace rs => some (b.replace rs)

/-- The runes it puts in. -/
def Op.inserted : Op → Nat
  | .add _ => 1
  | .replace rs => rs.length
  | _ => 0

theorem Buffer.exec_mono {t : Terminal} {b b' : Buffer t} {op : Op} {n m : Nat}
    (h : b.exec n op = some b') (hle : n ≤ m) : b.exec m op = some b' := by
  cases op with
  | deleteWord =>
    rw [exec, deleteWord] at h ⊢
    split at h
    · rw [if_pos ‹_›]
      obtain ⟨s, hs, rfl⟩ := Option.map_eq_some_iff.mp h
      rw [loop_mono hs hle]
      rfl
    · rw [if_neg ‹_›]
      exact h
  | moveLeftWord =>
    rw [exec, moveLeftWord] at h ⊢
    split at h
    · rw [if_pos ‹_›]
      obtain ⟨s, hs, rfl⟩ := Option.map_eq_some_iff.mp h
      rw [loop_mono hs hle]
      rfl
    · rw [if_neg ‹_›]
      exact h
  | moveRightWord =>
    rw [exec, moveRightWord] at h ⊢
    split at h
    · rw [if_pos ‹_›]
      exact loop_mono h hle
    · rw [if_neg ‹_›]
      exact h
  | _ => exact h

end Ecco9.Readline
