import Mathlib

/-!
# Paths

A path is a sequence of segments, and its text joins them with a delimiter that no segment
contains. Looking for one path at the front of another is done on the texts, as libraries do
it, and comes down to the segments.
-/

namespace Paths

variable {α : Type} {d : α}

/-- A text that is not empty and does not contain the delimiter. -/
structure Segment (d : α) where
  text : List α
  ne_nil : text ≠ []
  free : d ∉ text

@[ext] structure Path (d : α) where
  segments : List (Segment d)

theorem Segment.text_injective : Function.Injective (Segment.text : Segment d → List α) := by
  intro a b h
  cases a
  cases b
  cases h
  rfl

def Path.texts (p : Path d) : List (List α) := p.segments.map Segment.text

/-- The text of a path. -/
def Path.raw (p : Path d) : List α := [d].intercalate p.texts

/-- One more segment at the end. -/
def Path.join (p : Path d) (s : Segment d) : Path d := ⟨p.segments ++ [s]⟩

variable [DecidableEq α]

/-- The pieces between delimiters. Where the text ends with one, nothing follows it. -/
def splitTerminator (d : α) (text : List α) : List (List α) :=
  let parts := text.splitOn d
  if parts.getLast? = some [] then parts.dropLast else parts

/-- What follows the path `q` in a text must begin with a delimiter, unless one of the two
is empty. -/
def Path.stripDelimiter (q : Path d) (stripped : List α) : Option (List α) :=
  if stripped ≠ [] ∧ q.raw ≠ [] then stripped.dropPrefix? [d] else some stripped

/-- The pieces of `p` after the path `q`, if `q` is at its front. -/
def Path.prefixMatch (p q : Path d) : Option (List (List α)) := do
  let stripped ← p.raw.dropPrefix? q.raw
  let stripped ← q.stripDelimiter stripped
  return splitTerminator d stripped

/-! ## Texts and segments -/

theorem Path.splitOn_raw {p : Path d} (h : p.segments ≠ []) : p.raw.splitOn d = p.texts := by
  refine List.splitOn_intercalate d ?_ ?_
  · intro text ht
    obtain ⟨s, -, rfl⟩ := List.mem_map.1 ht
    exact s.free
  · simpa [Path.texts] using h

theorem Path.raw_eq_nil {p : Path d} : p.raw = [] ↔ p.segments = [] := by
  constructor
  · intro hraw
    by_contra hne
    have htexts := Path.splitOn_raw hne
    rw [hraw, List.splitOn_nil] at htexts
    obtain ⟨s, rest, hs⟩ := List.exists_cons_of_ne_nil hne
    rw [Path.texts, hs, List.map_cons] at htexts
    exact s.ne_nil (List.cons.inj htexts).1.symm
  · intro h
    simp [Path.raw, Path.texts, h]

theorem Path.raw_injective : Function.Injective (Path.raw : Path d → List α) := by
  intro p q h
  by_cases hp : p.segments = []
  · have hq : q.segments = [] := Path.raw_eq_nil.1 (h ▸ Path.raw_eq_nil.2 hp)
    ext1
    rw [hp, hq]
  · have hq : q.segments ≠ [] := fun hq => hp (Path.raw_eq_nil.1 (h.trans (Path.raw_eq_nil.2 hq)))
    have htexts : p.texts = q.texts := by rw [← Path.splitOn_raw hp, ← Path.splitOn_raw hq, h]
    ext1
    exact List.map_injective_iff.2 Segment.text_injective htexts

/-- The last piece of a text whose pieces are segments is not empty, so none is dropped. -/
theorem splitTerminator_of_segments {text : List α} {segments : List (Segment d)}
    (h : text.splitOn d = segments.map Segment.text) :
    splitTerminator d text = segments.map Segment.text := by
  unfold splitTerminator
  rw [h, if_neg]
  intro hlast
  rw [List.getLast?_map, Option.map_eq_some_iff] at hlast
  obtain ⟨s, -, hs⟩ := hlast
  exact s.ne_nil hs

theorem splitTerminator_nil : splitTerminator d ([] : List α) = [] := by
  simp [splitTerminator]

theorem Path.splitTerminator_raw (p : Path d) : splitTerminator d p.raw = p.texts := by
  by_cases hp : p.segments = []
  · rw [Path.raw_eq_nil.2 hp, splitTerminator_nil, Path.texts, hp, List.map_nil]
  · exact splitTerminator_of_segments (Path.splitOn_raw hp)

theorem dropPrefix?_eq_some {xs ys rest : List α} :
    xs.dropPrefix? ys = some rest ↔ xs = ys ++ rest := by
  rw [List.dropPrefix?_eq_some_iff]
  constructor
  · rintro ⟨front, rfl, hfront⟩
    rw [beq_iff_eq.1 hfront]
  · rintro rfl
    exact ⟨ys, rfl, beq_self_eq_true ys⟩

theorem Path.raw_append {q : Path d} (rest : List (Segment d)) (hq : q.segments ≠ [])
    (hrest : rest ≠ []) :
    (⟨q.segments ++ rest⟩ : Path d).raw = q.raw ++ d :: (⟨rest⟩ : Path d).raw := by
  -- both texts have the same pieces, and a text is the pieces joined again
  have hjoin : [d].intercalate ((q.raw ++ d :: (⟨rest⟩ : Path d).raw).splitOn d) =
      q.raw ++ d :: (⟨rest⟩ : Path d).raw := List.intercalate_splitOn d
  rw [← hjoin, List.splitOn_append_cons_self, Path.splitOn_raw hq, Path.splitOn_raw hrest,
    Path.raw, Path.texts, List.map_append]
  rfl

/-- A path behind another one. -/
theorem Path.prefixMatch_append {p q : Path d} {rest : List (Segment d)}
    (h : p.segments = q.segments ++ rest) : p.prefixMatch q = some (rest.map Segment.text) := by
  obtain rfl : p = ⟨q.segments ++ rest⟩ := Path.ext h
  have hsplit := Path.splitTerminator_raw (⟨rest⟩ : Path d)
  -- what is left of the text is the text of the rest
  suffices hstrip : ∃ stripped, (⟨q.segments ++ rest⟩ : Path d).raw = q.raw ++ stripped ∧
      q.stripDelimiter stripped = some (⟨rest⟩ : Path d).raw by
    obtain ⟨stripped, hraw, hdelim⟩ := hstrip
    unfold Path.prefixMatch
    rw [dropPrefix?_eq_some.2 hraw]
    show (q.stripDelimiter stripped).bind _ = _
    rw [hdelim]
    exact congrArg some hsplit
  unfold Path.stripDelimiter
  by_cases hq : q.segments = []
  · have hraw := Path.raw_eq_nil.2 hq
    refine ⟨(⟨rest⟩ : Path d).raw, by rw [hraw, hq, List.nil_append, List.nil_append], ?_⟩
    rw [if_neg fun h => h.2 hraw]
  by_cases hrest : rest = []
  · subst hrest
    have hnil : (⟨[]⟩ : Path d).raw = [] := Path.raw_eq_nil.2 rfl
    refine ⟨[], by rw [List.append_nil, List.append_nil], ?_⟩
    rw [if_neg fun h => h.1 rfl, hnil]
  · have hraw : q.raw ≠ [] := fun h => hq (Path.raw_eq_nil.1 h)
    refine ⟨d :: (⟨rest⟩ : Path d).raw, Path.raw_append rest hq hrest, ?_⟩
    rw [if_pos ⟨List.cons_ne_nil _ _, hraw⟩, dropPrefix?_eq_some, List.singleton_append]

/-- **A match of the texts is a match of the segments.** -/
theorem Path.prefixMatch_eq_some {p q : Path d} {parts : List (List α)} :
    p.prefixMatch q = some parts ↔
      ∃ rest, p.segments = q.segments ++ rest ∧ parts = rest.map Segment.text := by
  constructor
  · intro h
    -- it is enough that the segments of `q` are in front
    suffices hfront : ∃ rest, p.segments = q.segments ++ rest by
      obtain ⟨rest, hrest⟩ := hfront
      rw [Path.prefixMatch_append hrest] at h
      exact ⟨rest, hrest, (Option.some.inj h).symm⟩
    obtain ⟨stripped, hdrop, h⟩ := Option.bind_eq_some_iff.1 h
    obtain ⟨tail, htail, -⟩ := Option.bind_eq_some_iff.1 h
    rw [dropPrefix?_eq_some] at hdrop
    by_cases hq : q.segments = []
    · exact ⟨p.segments, by rw [hq, List.nil_append]⟩
    have hraw : q.raw ≠ [] := fun h => hq (Path.raw_eq_nil.1 h)
    by_cases hstripped : stripped = []
    · rw [hstripped, List.append_nil] at hdrop
      exact ⟨[], by rw [Path.raw_injective hdrop, List.append_nil]⟩
    · rw [Path.stripDelimiter, if_pos ⟨hstripped, hraw⟩, dropPrefix?_eq_some] at htail
      rw [htail, List.singleton_append] at hdrop
      have hp : p.segments ≠ [] := by
        intro hp
        rw [Path.raw_eq_nil.2 hp] at hdrop
        simp at hdrop
      have htexts : p.texts = q.texts ++ tail.splitOn d := by
        rw [← Path.splitOn_raw hp, ← Path.splitOn_raw hq, hdrop, List.splitOn_append_cons_self]
      obtain ⟨front, rest, hsegments, hfront, -⟩ := List.map_eq_append_iff.1 htexts
      have := List.map_injective_iff.2 Segment.text_injective hfront
      exact ⟨rest, by rw [hsegments, this]⟩
  · rintro ⟨rest, hrest, rfl⟩
    exact Path.prefixMatch_append hrest

end Paths
