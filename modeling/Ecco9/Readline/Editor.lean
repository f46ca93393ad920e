import Ecco9.Library.Runs
import Ecco9.Readline.Buffer

/-! A list of runes with a cursor, and that the line buffer edits as it does. -/

namespace Ecco9.Readline

open Ecco9.Library

/-- The runes before the cursor, the nearest first, and those behind it. -/
structure Editor where
  before : List Rune := []
  after : List Rune := []

namespace Editor

def text (e : Editor) : List Rune := e.before.reverse ++ e.after

def pos (e : Editor) : Nat := e.before.length

def length (e : Editor) : Nat := e.before.length + e.after.length

/-- Of the runes before the cursor, the spaces next to it and the word before them. -/
def lastWord (before : List Rune) : List Rune :=
  before.takeWhile (· = space) ++ (before.dropWhile (· = space)).takeWhile (· ≠ space)

def beforeWord (before : List Rune) : List Rune :=
  (before.dropWhile (· = space)).dropWhile (· ≠ space)

def edit : Editor → Op → Editor
  | ⟨before, after⟩, .add r => ⟨r :: before, after⟩
  | ⟨before, after⟩, .remove => ⟨before.tail, after⟩
  | ⟨before, after⟩, .delete => ⟨before, after.tail⟩
  | ⟨_, after⟩, .deleteBefore => ⟨[], after⟩
  | ⟨before, _⟩, .deleteRemaining => ⟨before, []⟩
  | ⟨before, after⟩, .deleteWord => ⟨beforeWord before, after⟩
  | ⟨r :: before, after⟩, .moveLeft => ⟨before, r :: after⟩
  | ⟨[], after⟩, .moveLeft => ⟨[], after⟩
  | ⟨before, r :: after⟩, .moveRight => ⟨r :: before, after⟩
  | ⟨before, []⟩, .moveRight => ⟨before, []⟩
  | ⟨before, after⟩, .moveLeftWord => ⟨beforeWord before, (lastWord before).reverse ++ after⟩
  | ⟨before, r :: after⟩, .moveRightWord =>
    ⟨(r :: after.takeWhile (· ≠ space)).reverse ++ before, after.dropWhile (· ≠ space)⟩
  | ⟨before, []⟩, .moveRightWord => ⟨before, []⟩
  | ⟨before, after⟩, .moveToStart => ⟨[], before.reverse ++ after⟩
  | ⟨before, after⟩, .moveToEnd => ⟨after.reverse ++ before, []⟩
  | _, .replace rs => ⟨rs.reverse, []⟩

theorem length_word (before : List Rune) :
    (lastWord before).length + (beforeWord before).length = before.length := by
  rw [lastWord, beforeWord, List.length_append, Nat.add_assoc, ← List.length_append,
    List.takeWhile_append_dropWhile, ← List.length_append, List.takeWhile_append_dropWhile]

theorem length_edit (e : Editor) (op : Op) : (e.edit op).length ≤ e.length + op.inserted := by
  obtain ⟨before, after⟩ := e
  have hword := length_word before
  cases op with
  | moveLeft => cases before <;> simp [edit, length, Op.inserted]; omega
  | moveRight => cases after <;> simp [edit, length, Op.inserted]; omega
  | moveRightWord =>
    cases after with
    | nil => exact Nat.le_refl _
    | cons r after =>
      have hsplit := congrArg List.length (List.takeWhile_append_dropWhile (p := (· ≠ space)) (l := after))
      rw [List.length_append] at hsplit
      simp only [edit, length, Op.inserted, List.length_append, List.length_reverse, List.length_cons]
      omega
  | _ =>
    simp only [edit, length, Op.inserted, List.length_append, List.length_reverse, List.length_cons,
      List.length_tail, List.length_nil]
    omega

end Editor

/-- The buffer has the text and the cursor of the editor. -/
structure Shows {t : Terminal} (b : Buffer t) (e : Editor) : Prop where
  text : t.runes.elems b.buf = e.text
  pos : b.pos = e.pos

namespace Shows

variable {t : Terminal} {b : Buffer t} {e : Editor} {before after : List Rune} {r : Rune}

theorem pos_eq (h : Shows b ⟨before, after⟩) : b.pos = before.length := h.pos

theorem size (h : Shows b ⟨before, after⟩) : b.size = before.length + after.length := by
  rw [Buffer.size, t.runes.size_eq, h.text, Editor.text, List.length_append, List.length_reverse]
  exact Int.natCast_add ..

theorem range (h : Shows b e) : 0 ≤ b.pos ∧ b.pos ≤ b.size := by
  obtain ⟨before, after⟩ := e
  rw [h.size, h.pos_eq]
  omega

theorem drawRemaining (h : Shows b e) : Shows b.drawRemaining e := by
  obtain ⟨lineHasSpace, heq⟩ := b.drawRemaining_eq
  rw [heq]
  exact ⟨h.text, h.pos⟩

theorem get_left (h : Shows b ⟨r :: before, after⟩) : b.get (b.pos - 1) = some r := by
  have htext : t.runes.elems b.buf = before.reverse ++ r :: after := by
    rw [h.text, Editor.text, List.reverse_cons, List.append_assoc]
    rfl
  have hpos : b.pos - 1 = before.reverse.length := by
    rw [h.pos, Editor.pos, List.length_cons, List.length_reverse]
    omega
  rw [Buffer.get, hpos]
  exact t.runes.get_at htext

theorem get_right (h : Shows b ⟨before, r :: after⟩) : b.get b.pos = some r := by
  have hpos : b.pos = before.reverse.length := by rw [h.pos, Editor.pos, List.length_reverse]
  rw [Buffer.get, hpos]
  exact t.runes.get_at h.text

/-! ### One rune -/

theorem moveLeft (h : Shows b ⟨r :: before, after⟩) : Shows b.moveLeft ⟨before, r :: after⟩ := by
  have hpos := h.pos_eq
  rw [List.length_cons] at hpos
  rw [Buffer.moveLeft, if_pos (by omega), h.get_left]
  refine ⟨?_, ?_⟩
  · rw [h.text, Editor.text, Editor.text, List.reverse_cons, List.append_assoc]
    rfl
  · dsimp only [Editor.pos]
    omega

theorem moveRight (h : Shows b ⟨before, r :: after⟩) : Shows b.moveRight ⟨r :: before, after⟩ := by
  have hpos := h.pos_eq
  have hsize := h.size
  rw [List.length_cons] at hsize
  rw [Buffer.moveRight, if_pos (by omega), h.get_right]
  refine ⟨?_, ?_⟩
  · rw [h.text, Editor.text, Editor.text, List.reverse_cons, List.append_assoc]
    rfl
  · dsimp only [Editor.pos, List.length_cons]
    omega

theorem remove (h : Shows b ⟨r :: before, after⟩) : Shows b.remove ⟨before, after⟩ := by
  have hpos := h.pos_eq
  have hsize := h.size
  rw [List.length_cons] at hpos
  rw [List.length_cons] at hsize
  have hbuf : t.runes.elems (t.runes.remove b.buf (b.pos - 1)) = before.reverse ++ after := by
    have htext : t.runes.elems b.buf = before.reverse ++ r :: after := by
      rw [h.text, Editor.text, List.reverse_cons, List.append_assoc]
      rfl
    have hleft : b.pos - 1 = before.reverse.length := by
      rw [List.length_reverse]
      omega
    rw [hleft]
    exact t.runes.elems_remove_at htext
  have hremoved (displayPos : Int) (lineHasSpace : t.bools.Carrier) :
      Shows { displayPos, pos := b.pos - 1, buf := t.runes.remove b.buf (b.pos - 1), lineHasSpace }
        ⟨before, after⟩ := by
    refine ⟨hbuf, ?_⟩
    dsimp only [Editor.pos]
    omega
  rw [Buffer.remove, if_pos (by omega), h.get_left]
  dsimp only
  split
  · exact (hremoved _ _).drawRemaining
  · exact hremoved _ _

theorem delete (h : Shows b ⟨before, r :: after⟩) : Shows b.delete ⟨before, after⟩ := by
  have hpos := h.pos_eq
  have hsize := h.size
  rw [List.length_cons] at hsize
  have hright : b.pos = before.reverse.length := by rw [hpos, List.length_reverse]
  rw [Buffer.delete, if_pos (by omega)]
  refine Shows.drawRemaining ⟨?_, h.pos⟩
  dsimp only
  rw [hright]
  exact t.runes.elems_remove_at h.text

theorem addChar (h : Shows b ⟨before, after⟩) (insert : Bool) (hinsert : insert = false → after = [])
    (r : Rune) : Shows (b.addChar r insert) ⟨r :: before, after⟩ := by
  have htext : Editor.text ⟨r :: before, after⟩ = before.reverse ++ r :: after := by
    rw [Editor.text, List.reverse_cons, List.append_assoc]
    rfl
  cases insert with
  | true =>
    refine Shows.drawRemaining ⟨?_, congrArg (· + 1) h.pos⟩
    change t.runes.elems (t.runes.insert b.buf b.pos r) = _
    have hpos : b.pos = before.reverse.length := by rw [h.pos_eq, List.length_reverse]
    rw [htext, hpos]
    exact t.runes.elems_insert_at h.text r
  | false =>
    obtain rfl := hinsert rfl
    refine ⟨?_, congrArg (· + 1) h.pos⟩
    change t.runes.elems (t.runes.add b.buf r) = _
    rw [htext, t.runes.elems_add, h.text, Editor.text, List.append_nil]

theorem add (h : Shows b ⟨before, after⟩) (r : Rune) : Shows (b.add r) ⟨r :: before, after⟩ := by
  have hsize := h.size
  have hpos := h.pos_eq
  unfold Buffer.add
  split
  · refine h.addChar false (fun _ => List.eq_nil_of_length_eq_zero ?_) r
    omega
  · exact h.addChar true nofun r

/-! ### Several -/

theorem deleteBefore (h : Shows b ⟨before, after⟩) : Shows b.deleteBefore ⟨[], after⟩ := by
  have hturns : Shows (Buffer.remove^[before.length] b) ⟨[], after⟩ := by
    induction before generalizing b with
    | nil => exact h
    | cons r before ih => exact ih h.remove
  have hpos := h.pos_eq
  rw [Buffer.deleteBefore, hpos, Int.toNat_natCast]
  split
  · exact hturns
  · obtain rfl : before = [] := List.eq_nil_of_length_eq_zero (by omega)
    exact hturns

/-- All that is behind the cursor goes, or nothing. -/
theorem deleteRemaining_iff (h : Shows b ⟨before, after⟩) : Shows b.deleteRemaining ⟨before, []⟩ ↔
    b.pos < b.displaySize ∨ b.pos = b.size := by
  have hturns : Shows (Buffer.delete^[after.length] b) ⟨before, []⟩ := by
    induction after generalizing b with
    | nil => exact h
    | cons r after ih => exact ih h.delete
  have hpos := h.pos_eq
  have hsize := h.size
  have hcount : (b.size - b.pos).toNat = after.length := by
      omega
  rw [Buffer.deleteRemaining, hcount]
  split
  · exact iff_of_true hturns (.inl (by omega))
  · constructor
    · intro hnone
      refine .inr ?_
      rw [hnone.size, hnone.pos]
      exact (Int.add_zero _).symm
    · rintro (hlt | hend)
      · omega
      · obtain rfl : after = [] := List.eq_nil_of_length_eq_zero (by
                  omega)
        exact h

theorem replace (b : Buffer t) (rs : List Rune) : Shows (b.replace rs) ⟨rs.reverse, []⟩ := by
  have hadds (done : List Rune) {b : Buffer t} (hb : Shows b ⟨done.reverse, []⟩) :
      Shows (rs.foldl Buffer.add b) ⟨(done ++ rs).reverse, []⟩ := by
    induction rs generalizing done b with
    | nil => rwa [List.append_nil]
    | cons r rs ih =>
      have hnext := ih (done ++ [r]) (b := b.add r) (by
        rw [List.reverse_append]
        exact hb.add r)
      rwa [List.append_assoc] at hnext
  exact hadds [] ⟨t.runes.elems_clear b.buf, rfl⟩

theorem moveToStart (h : Shows b ⟨before, after⟩) : Shows b.moveToStart ⟨[], before.reverse ++ after⟩ := by
  have hpos := h.pos_eq
  unfold Buffer.moveToStart
  split
  · exact ⟨h.text, rfl⟩
  · obtain rfl : before = [] := List.eq_nil_of_length_eq_zero (by omega)
    exact h

theorem moveToEnd (h : Shows b ⟨before, after⟩) : Shows b.moveToEnd ⟨after.reverse ++ before, []⟩ := by
  have hpos := h.pos_eq
  have hsize := h.size
  have htext : t.runes.elems b.buf = Editor.text ⟨after.reverse ++ before, []⟩ := by
    rw [h.text, Editor.text, Editor.text, List.append_nil, List.reverse_append, List.reverse_reverse]
  unfold Buffer.moveToEnd
  split
  · refine ⟨htext, ?_⟩
    rw [Editor.pos, List.length_append, List.length_reverse]
    dsimp only
    omega
  · refine ⟨htext, ?_⟩
    rw [Editor.pos, List.length_append, List.length_reverse]
    omega

/-! ### Words -/

section Words

variable {single : Buffer t → Buffer t} {carry : Rune → List Rune → List Rune}

theorem wordTurn_stop (h : Shows b ⟨r :: before, after⟩) (hr : r = space) :
    Buffer.wordTurn single (b, true) = ((b, true), true) := by
  rw [Buffer.wordTurn, h.get_left]
  exact if_pos ⟨hr, rfl⟩

variable (hsingle : ∀ {b : Buffer t} {r before after}, Shows b ⟨r :: before, after⟩ →
  Shows (single b) ⟨before, carry r after⟩)

include hsingle

theorem wordTurn_go (h : Shows b ⟨r :: before, after⟩) {found : Bool} (hr : ¬(r = space ∧ found)) :
    Buffer.wordTurn single (b, found) =
      ((single b, found || decide (r ≠ space)), decide (before = [])) := by
  have hend : decide ((single b).pos = 0) = decide (before = []) := by
    rw [(hsingle h).pos_eq, decide_eq_decide, ← List.length_eq_zero_iff]
    omega
  rw [Buffer.wordTurn, h.get_left]
  rw [← hend]
  exact if_neg hr

/-- Behind a rune that is no space, the loop goes to the beginning of the word. -/
theorem wordLoop_word (h : Shows b ⟨r :: before, after⟩) {n : Nat} (hn : before.length < n) :
    ∃ s, loop (Buffer.wordTurn single) n (b, true) = some s ∧
      Shows s.1 ⟨(r :: before).dropWhile (· ≠ space),
        ((r :: before).takeWhile (· ≠ space)).foldl (fun after r => carry r after) after⟩ := by
  induction before generalizing b r after n with
  | nil =>
    obtain ⟨n, rfl⟩ : ∃ m, n = m + 1 := ⟨n - 1, by omega⟩
    by_cases hr : r = space
    · refine ⟨_, loop_last (wordTurn_stop h hr) n, ?_⟩
      simpa [hr] using h
    · refine ⟨_, loop_last (wordTurn_go hsingle h fun hstop => hr hstop.1) n, ?_⟩
      simpa [hr] using hsingle h
  | cons r' before ih =>
    obtain ⟨n, rfl⟩ : ∃ m, n = m + 1 := ⟨n - 1, by omega⟩
    by_cases hr : r = space
    · refine ⟨_, loop_last (wordTurn_stop h hr) n, ?_⟩
      simpa [hr] using h
    · obtain ⟨s, hs, hshows⟩ := ih (hsingle h) (Nat.lt_of_succ_lt_succ hn)
      refine ⟨s, (loop_next (wordTurn_go hsingle h fun hstop => hr hstop.1) n).trans hs, ?_⟩
      simpa [hr] using hshows

variable (carry) in
theorem wordLoop (h : Shows b ⟨r :: before, after⟩) {n : Nat} (hn : before.length < n) :
    ∃ s, loop (Buffer.wordTurn single) n (b, false) = some s ∧
      Shows s.1 ⟨Editor.beforeWord (r :: before),
        (Editor.lastWord (r :: before)).foldl (fun after r => carry r after) after⟩ := by
  have hgo : ¬(r = space ∧ false = true) := fun hstop => Bool.false_ne_true hstop.2
  induction before generalizing b r after n with
  | nil =>
    obtain ⟨n, rfl⟩ : ∃ m, n = m + 1 := ⟨n - 1, by omega⟩
    refine ⟨_, loop_last (wordTurn_go hsingle h hgo) n, ?_⟩
    by_cases hr : r = space <;> simpa [Editor.beforeWord, Editor.lastWord, hr] using hsingle h
  | cons r' before ih =>
    obtain ⟨n, rfl⟩ : ∃ m, n = m + 1 := ⟨n - 1, by omega⟩
    have hnext := loop_next (wordTurn_go hsingle h hgo) n
    by_cases hr : r = space
    · obtain ⟨s, hs, hshows⟩ := ih (hsingle h) (Nat.lt_of_succ_lt_succ hn)
        fun hstop => Bool.false_ne_true hstop.2
      rw [hr] at hnext
      refine ⟨s, hnext.trans hs, ?_⟩
      simpa [Editor.beforeWord, Editor.lastWord, hr] using hshows
    · obtain ⟨s, hs, hshows⟩ := wordLoop_word hsingle (hsingle h) (Nat.lt_of_succ_lt_succ hn)
      rw [decide_eq_true hr] at hnext
      refine ⟨s, hnext.trans hs, ?_⟩
      simpa [Editor.beforeWord, Editor.lastWord, hr] using hshows

omit hsingle

theorem moveLeftWord (h : Shows b ⟨before, after⟩) {n : Nat} (hn : before.length < n) :
    ∃ b', b.moveLeftWord n = some b' ∧
      Shows b' ⟨Editor.beforeWord before, (Editor.lastWord before).reverse ++ after⟩ := by
  have hpos := h.pos_eq
  cases before with
  | nil => exact ⟨b, if_neg (by simp [hpos]), h⟩
  | cons r before =>
    rw [List.length_cons] at hpos hn
    obtain ⟨s, hs, hshows⟩ := wordLoop List.cons moveLeft h (Nat.lt_of_succ_lt hn)
    rw [List.foldl_flip_cons_eq_append'] at hshows
    refine ⟨s.1, ?_, hshows⟩
    rw [Buffer.moveLeftWord, if_pos (by omega), hs]
    rfl

theorem deleteWord (h : Shows b ⟨before, after⟩) {n : Nat} (hn : before.length < n) :
    ∃ b', b.deleteWord n = some b' ∧ Shows b' ⟨Editor.beforeWord before, after⟩ := by
  have hpos := h.pos_eq
  have hsize := h.size
  cases before with
  | nil => exact ⟨b, if_neg (by simp [hpos]), h⟩
  | cons r before =>
    rw [List.length_cons] at hpos hsize hn
    obtain ⟨s, hs, hshows⟩ := wordLoop (fun _ after => after) remove h (Nat.lt_of_succ_lt hn)
    rw [List.foldl_fixed] at hshows
    refine ⟨s.1, ?_, hshows⟩
    rw [Buffer.deleteWord, if_pos (by omega), hs]
    rfl

end Words

theorem rightLoop (h : Shows b ⟨before, r :: after⟩) {n : Nat} (hn : after.length < n) :
    ∃ b', loop Buffer.rightTurn n b = some b' ∧
      Shows b' ⟨(r :: after.takeWhile (· ≠ space)).reverse ++ before, after.dropWhile (· ≠ space)⟩ := by
  have hmoved := h.moveRight
  induction after generalizing b r before n with
  | nil =>
    obtain ⟨n, rfl⟩ : ∃ m, n = m + 1 := ⟨n - 1, by omega⟩
    have hend : b.moveRight.pos = b.moveRight.size := by
      rw [hmoved.pos_eq, hmoved.size]
      exact (Int.add_zero _).symm
    have hturn : b.rightTurn = (b.moveRight, true) := by simp [Buffer.rightTurn, hend]
    exact ⟨_, loop_last hturn n, hmoved⟩
  | cons r' after ih =>
    obtain ⟨n, rfl⟩ : ∃ m, n = m + 1 := ⟨n - 1, by omega⟩
    have hget := hmoved.get_right
    by_cases hr : r' = space
    · have hturn : b.rightTurn = (b.moveRight, true) := by simp [Buffer.rightTurn, hget, hr]
      refine ⟨_, loop_last hturn n, ?_⟩
      simpa [hr] using hmoved
    · have hlt : b.moveRight.pos ≠ b.moveRight.size := by
        rw [hmoved.pos_eq, hmoved.size]
        simp only [List.length_cons]
        omega
      have hturn : b.rightTurn = (b.moveRight, false) := by simp [Buffer.rightTurn, hget, hr, hlt]
      obtain ⟨b', hb', hshows⟩ := ih hmoved (Nat.lt_of_succ_lt_succ hn) hmoved.moveRight
      refine ⟨b', (loop_next hturn n).trans hb', ?_⟩
      simpa [hr] using hshows

theorem moveRightWord (h : Shows b ⟨before, after⟩) {n : Nat} (hn : after.length < n) :
    ∃ b', b.moveRightWord n = some b' ∧ Shows b' (Editor.edit ⟨before, after⟩ .moveRightWord) := by
  have hpos := h.pos_eq
  have hsize := h.size
  cases after with
  | nil => exact ⟨b, if_neg (by simp [hpos, hsize]), h⟩
  | cons r after =>
    rw [List.length_cons] at hsize hn
    obtain ⟨b', hb', hshows⟩ := h.rightLoop (Nat.lt_of_succ_lt hn)
    exact ⟨b', (if_pos (by omega)).trans hb', hshows⟩

/-! ### Steps -/

theorem exec (h : Shows b e) {op : Op} (hop : op ≠ .deleteRemaining) {n : Nat} (hn : e.length < n) :
    ∃ b', b.exec n op = some b' ∧ Shows b' (e.edit op) := by
  obtain ⟨before, after⟩ := e
  have hbefore : before.length < n := Nat.lt_of_le_of_lt (Nat.le_add_right ..) hn
  have hafter : after.length < n := Nat.lt_of_le_of_lt (Nat.le_add_left ..) hn
  have hpos := h.pos_eq
  have hsize := h.size
  cases op with
  | add r => exact ⟨_, rfl, h.add r⟩
  | remove =>
    cases before with
    | nil =>
      refine ⟨_, rfl, ?_⟩
      rw [Buffer.remove, if_neg (by simp [hpos])]
      exact h
    | cons r before => exact ⟨_, rfl, h.remove⟩
  | delete =>
    cases after with
    | nil =>
      refine ⟨_, rfl, ?_⟩
      rw [Buffer.delete, if_neg (by simp [hpos, hsize])]
      exact h
    | cons r after => exact ⟨_, rfl, h.delete⟩
  | deleteBefore => exact ⟨_, rfl, h.deleteBefore⟩
  | deleteRemaining => exact absurd rfl hop
  | deleteWord => exact h.deleteWord hbefore
  | moveLeft =>
    cases before with
    | nil =>
      refine ⟨_, rfl, ?_⟩
      rw [Buffer.moveLeft, if_neg (by simp [hpos])]
      exact h
    | cons r before => exact ⟨_, rfl, h.moveLeft⟩
  | moveRight =>
    cases after with
    | nil =>
      refine ⟨_, rfl, ?_⟩
      rw [Buffer.moveRight, if_neg (by simp [hpos, hsize])]
      exact h
    | cons r after => exact ⟨_, rfl, h.moveRight⟩
  | moveLeftWord => exact h.moveLeftWord hbefore
  | moveRightWord => exact h.moveRightWord hafter
  | moveToStart => exact ⟨_, rfl, h.moveToStart⟩
  | moveToEnd => exact ⟨_, rfl, h.moveToEnd⟩
  | replace rs => exact ⟨_, rfl, replace b rs⟩

end Shows

/-- Where the rest is deleted, the position is before the width of the text, or there is no rest. -/
def Meets {t : Terminal} (b : Buffer t) (op : Op) : Prop :=
  op = .deleteRemaining → b.pos < b.displaySize ∨ b.pos = b.size

/-- The buffer and the editor side by side. -/
def both {t : Terminal} (fuel : Nat) (s : Buffer t × Editor) (op : Op) : Option (Buffer t × Editor) :=
  (s.1.exec fuel op).map fun b => (b, s.2.edit op)

section Runs

variable {t : Terminal} {fuel : Nat} {s s' : Buffer t × Editor} {op : Op}

theorem both_shows (h : Shows s.1 s.2) (hstep : both fuel s op = some s') :
    Shows s'.1 s'.2 ↔ Meets s.1 op := by
  obtain ⟨b, e⟩ := s
  obtain ⟨b', hb', rfl⟩ := Option.map_eq_some_iff.mp hstep
  by_cases hop : op = .deleteRemaining
  · subst hop
    obtain rfl := Option.some.inj hb'
    exact h.deleteRemaining_iff.trans ⟨fun hmeets _ => hmeets, fun hmeets => hmeets rfl⟩
  · refine iff_of_true ?_ fun hdelete => absurd hdelete hop
    obtain ⟨b'', hb'', hshows⟩ := h.exec hop (Nat.lt_of_lt_of_le (Nat.lt_succ_self e.length)
      (Nat.le_max_right fuel (e.length + 1)))
    rw [Buffer.exec_mono hb' (Nat.le_max_left ..)] at hb''
    obtain rfl := Option.some.inj hb''
    exact hshows

/-- A step ends, and its position is within the text, whatever the editor does. -/
theorem both_ends {e : Editor} (h : Shows s.1 e) (op : Op) (hfuel : e.length < fuel) :
    ∃ s' e', both fuel s op = some s' ∧ Shows s'.1 e' ∧ e'.length ≤ e.length + op.inserted := by
  by_cases hop : op = .deleteRemaining
  · subst hop
    by_cases hmeets : s.1.pos < s.1.displaySize ∨ s.1.pos = s.1.size
    · exact ⟨_, _, rfl, h.deleteRemaining_iff.mpr hmeets, e.length_edit .deleteRemaining⟩
    · refine ⟨_, e, rfl, ?_, Nat.le_refl _⟩
      have hidle : s.1.deleteRemaining = s.1 := if_neg fun hlt => hmeets (.inl hlt.2)
      rw [hidle]
      exact h
  · obtain ⟨b', hb', hshows⟩ := h.exec hop hfuel
    refine ⟨(b', s.2.edit op), _, ?_, hshows, e.length_edit op⟩
    rw [both, hb']
    rfl

def inserted (ops : List Op) : Nat := (ops.map Op.inserted).sum

theorem run_ends {e : Editor} (h : Shows s.1 e) (ops : List Op) (hfuel : e.length + inserted ops < fuel) :
    ∃ s' e', ops.foldlM (both fuel) s = some s' ∧ Shows s'.1 e' := by
  induction ops generalizing s e with
  | nil => exact ⟨s, e, rfl, h⟩
  | cons op ops ih =>
    rw [inserted, List.map_cons, List.sum_cons] at hfuel
    have hnow : e.length < fuel := by omega
    obtain ⟨s₁, e₁, hs₁, h₁, hlen⟩ := both_ends h op hnow
    obtain ⟨s', e', hs', h'⟩ := ih h₁ (by unfold inserted; omega)
    refine ⟨s', e', ?_, h'⟩
    rw [List.foldlM_cons, hs₁]
    exact hs'

theorem inserted_take (ops : List Op) (k : Nat) : inserted (ops.take k) ≤ inserted ops := by
  rw [inserted, inserted, ← List.take_append_drop k ops, List.map_append, List.sum_append,
    List.take_append_drop]
  exact Nat.le_add_right ..

end Runs

/-- In every run every loop ends and the cursor stays within the text; and the text and the cursor are
those of the editor in every state, just when `DeleteRemaining` is never called with the position at or
behind the width of a text that goes on. -/
theorem buffer_edits (t : Terminal) (ops : List Op) : ∃ n, ∀ fuel ≥ n,
    (∀ k, ∃ s : Buffer t × Editor, (ops.take k).foldlM (both fuel) ({}, {}) = some s ∧
      0 ≤ s.1.pos ∧ s.1.pos ≤ s.1.size) ∧
    ((∀ k (s : Buffer t × Editor), (ops.take k).foldlM (both fuel) ({}, {}) = some s → Shows s.1 s.2) ↔
      AlongM (both fuel) (fun s op => Meets s.1 op) (({}, {}) : Buffer t × Editor) ops) := by
  have hstart : Shows ({} : Buffer t) {} := ⟨t.runes.elems_empty, rfl⟩
  refine ⟨inserted ops + 1, fun fuel hfuel => ⟨fun k => ?_, ?_⟩⟩
  · have hle := inserted_take ops k
    have hlen : Editor.length {} + inserted (ops.take k) < fuel := by
      rw [Editor.length, List.length_nil]
      omega
    obtain ⟨s, e, hs, hshows⟩ := run_ends (s := (({}, {}) : Buffer t × Editor)) hstart (ops.take k) hlen
    exact ⟨s, hs, hshows.range⟩
  · exact alongM_iff (I := fun s : Buffer t × Editor => Shows s.1 s.2)
      (fun s op s' h hstep => both_shows h hstep) hstart ops

/-- A terminal on which combining accents have no width. -/
def plainTerminal : Terminal where
  runes := .lists Rune
  bools := .lists Bool
  runeWidth r := if 0x300 ≤ r ∧ r < 0x370 then 0 else 1
  stringWidth rs := (rs.map fun r => if 0x300 ≤ r ∧ r < 0x370 then 0 else 1).sum
  lineWidth := 80
  narrow r := by split <;> decide
  wide := by decide

/-- Behind an `e` the accent has no width: the rest is not deleted. -/
theorem accent_remains : ¬∀ (t : Terminal) (ops : List Op), ∃ n, ∀ fuel ≥ n,
    ∀ s : Buffer t × Editor, ops.foldlM (both fuel) ({}, {}) = some s → Shows s.1 s.2 := by
  intro h
  obtain ⟨n, hn⟩ := h plainTerminal [.add 0x65, .add 0x301, .moveLeft, .deleteRemaining]
  have htext := (hn n (Nat.le_refl n) _ rfl).text
  exact absurd htext (by decide)

end Ecco9.Readline
