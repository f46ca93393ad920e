import Ecco9.Library.Utf8

/-! Slash-separated paths: `Join`, `Clean` and `Match`. -/

namespace Ecco9.Library

def pathSeparator : UInt8 := 47

/-- One element of a path that is cleaned, over the elements that are kept, the last one first. -/
def cleanElem (rooted : Bool) (kept : List Text) (elem : Text) : List Text :=
  if elem = [] ∨ elem = ascii "." then kept
  else if elem = ascii ".." then
    match kept with
    | [] => if rooted then [] else [elem]
    | last :: rest => if last = ascii ".." then elem :: kept else rest
  else elem :: kept

/-- `Clean`: the shortest path that is the same lexically. -/
def cleanPath (s : Text) : Text :=
  let rooted := decide (s.head? = some pathSeparator)
  let kept := (s.splitOn pathSeparator).foldl (cleanElem rooted) []
  let body := [pathSeparator].intercalate kept.reverse
  if rooted then pathSeparator :: body else if body = [] then ascii "." else body

/-- `Join`: empty elements are left out. -/
def joinPath (elems : List Text) : Text :=
  match elems.dropWhile (· = []) with
  | [] => []
  | elems => cleanPath ([pathSeparator].intercalate elems)

/-- An element that `Clean` leaves as it is. -/
structure IsPathElem (s : Text) : Prop where
  ne_nil : s ≠ []
  ne_dot : s ≠ ascii "."
  ne_dots : s ≠ ascii ".."
  clear : pathSeparator ∉ s

theorem foldl_cleanElem {elems : List Text} (h : ∀ s ∈ elems, IsPathElem s) (rooted : Bool)
    (kept : List Text) : elems.foldl (cleanElem rooted) kept = elems.reverse ++ kept := by
  induction elems generalizing kept with
  | nil => rfl
  | cons s elems ih =>
    have hs := h s (by simp)
    have hkeep : cleanElem rooted kept s = s :: kept := by
      unfold cleanElem
      rw [if_neg (by simp [hs.ne_nil, hs.ne_dot]), if_neg hs.ne_dots]
    rw [List.foldl_cons, hkeep, ih fun s hs => h s (by simp [hs])]
    simp

theorem cleanPath_intercalate {elems : List Text} (hne : elems ≠ [])
    (h : ∀ s ∈ elems, IsPathElem s) :
    cleanPath ([pathSeparator].intercalate elems) = [pathSeparator].intercalate elems := by
  have hsplit : ([pathSeparator].intercalate elems).splitOn pathSeparator = elems :=
    List.splitOn_intercalate _ (fun s hs => (h s hs).clear) hne
  obtain ⟨s, rest, rfl⟩ := List.exists_cons_of_ne_nil hne
  have hs := h s (by simp)
  obtain ⟨c, t, rfl⟩ := List.exists_cons_of_ne_nil hs.ne_nil
  have hhead : ∃ t', [pathSeparator].intercalate ((c :: t) :: rest) = c :: t' := by
    cases rest with
    | nil => exact ⟨t, List.intercalate_singleton⟩
    | cons a rest => exact ⟨_, List.intercalate_cons_cons⟩
  obtain ⟨t', ht'⟩ := hhead
  have hc : c ≠ pathSeparator := by
    rintro rfl
    exact hs.clear (by simp)
  have hrooted : decide (([pathSeparator].intercalate ((c :: t) :: rest)).head? =
      some pathSeparator) = false := by
    rw [ht', decide_eq_false_iff_not]
    exact fun heq => hc (Option.some.inj heq)
  rw [cleanPath, hrooted, hsplit, foldl_cleanElem h, List.append_nil, List.reverse_reverse]
  rw [if_neg Bool.false_ne_true, if_neg]
  rw [ht']
  exact List.cons_ne_nil c t'

theorem joinPath_eq {elems : List Text} (hne : elems ≠ []) (h : ∀ s ∈ elems, IsPathElem s) :
    joinPath elems = [pathSeparator].intercalate elems := by
  have hdrop : elems.dropWhile (· = []) = elems := by
    obtain ⟨s, rest, rfl⟩ := List.exists_cons_of_ne_nil hne
    exact List.dropWhile_cons_of_neg (by simpa using (h s (by simp)).ne_nil)
  rw [joinPath, hdrop]
  split
  · exact absurd rfl hne
  · exact cleanPath_intercalate hne h

/-- `Match`, for patterns in which nothing but `*` is special: it stands for any bytes but a slash. -/
def pathMatch : (pattern : Text) → Text → Bool
  | [], s => s.isEmpty
  | c :: pattern, s =>
    if c = 42 then
      (List.range (s.length + 1)).any fun n =>
        !(s.take n).contains pathSeparator && pathMatch pattern (s.drop n)
    else s.head? = some c && pathMatch pattern s.tail

theorem pathMatch_literal {pattern : Text} (h : 42 ∉ pattern) (s : Text) :
    pathMatch pattern s = true ↔ s = pattern := by
  induction pattern generalizing s with
  | nil => simp [pathMatch]
  | cons c pattern ih =>
    obtain ⟨hc, h⟩ := not_or.mp (mt List.mem_cons.mpr h)
    have ih := ih h
    rw [pathMatch, if_neg (Ne.symm hc)]
    cases s with
    | nil => simp
    | cons b s => simp [ih]

/-- A pattern with one `*`. -/
theorem pathMatch_star {front back : Text} (hfront : 42 ∉ front) (hback : 42 ∉ back) (s : Text) :
    pathMatch (front ++ 42 :: back) s = true ↔
      ∃ mid, pathSeparator ∉ mid ∧ s = front ++ mid ++ back := by
  induction front generalizing s with
  | nil =>
    rw [List.nil_append, pathMatch, if_pos rfl]
    simp only [List.any_eq_true, List.mem_range, Bool.and_eq_true, Bool.not_eq_true',
      List.contains_eq_mem, decide_eq_false_iff_not, pathMatch_literal hback, List.nil_append]
    constructor
    · rintro ⟨n, -, hmid, hrest⟩
      exact ⟨s.take n, hmid, by rw [← hrest, List.take_append_drop]⟩
    · rintro ⟨mid, hmid, rfl⟩
      refine ⟨mid.length, ?_, ?_, ?_⟩
      · rw [List.length_append]
        omega
      · rwa [List.take_left]
      · rw [List.drop_left]
  | cons c front ih =>
    obtain ⟨hc, hfront⟩ := not_or.mp (mt List.mem_cons.mpr hfront)
    have ih := ih hfront
    rw [List.cons_append, pathMatch, if_neg (Ne.symm hc)]
    cases s with
    | nil => simp
    | cons b s =>
      simp only [Bool.and_eq_true, decide_eq_true_eq, ih, List.cons_append, List.cons.injEq,
        List.head?_cons, List.tail_cons, Option.some.injEq]
      constructor
      · rintro ⟨rfl, mid, hmid, rfl⟩
        exact ⟨mid, hmid, rfl, rfl⟩
      · rintro ⟨mid, hmid, rfl, rfl⟩
        exact ⟨rfl, mid, hmid, rfl⟩

end Ecco9.Library
