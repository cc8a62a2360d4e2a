import Mathlib.Data.List.Basic
import Mathlib.Data.List.Nodup

/- Cells in memory that point to each other. A link function has no value where nothing is allocated,
and the value `none` for a null pointer. -/
namespace Linked

variable {A : Type} {link link' : A → Option (Option A)} {first last : Option A} {cell : A} {cells more : List A}

/-- Following the links from a pointer visits these cells and leaves them with another pointer. -/
def Segment (link : A → Option (Option A)) : Option A → List A → Option A → Prop
  | first, [], last => first = last
  | first, cell :: cells, last => first = some cell ∧ ∃ next, link cell = some next ∧ Segment link next cells last

theorem segment_append :
    Segment link first (cells ++ more) last ↔
      ∃ middle, Segment link first cells middle ∧ Segment link middle more last := by
  induction cells generalizing first with
  | nil => simp [Segment]
  | cons cell cells ih =>
    simp only [List.cons_append, Segment, ih]
    constructor
    · rintro ⟨here, next, leads, middle, left, right⟩
      exact ⟨middle, ⟨here, next, leads, left⟩, right⟩
    · rintro ⟨middle, ⟨here, next, leads, left⟩, right⟩
      exact ⟨here, next, leads, middle, left, right⟩

theorem segment_singleton : Segment link first [cell] last ↔ first = some cell ∧ link cell = some last := by
  simp [Segment]

theorem Segment.congr (visits : Segment link first cells last) (same : ∀ c ∈ cells, link' c = link c) :
    Segment link' first cells last := by
  induction cells generalizing first with
  | nil => exact visits
  | cons cell cells ih =>
    obtain ⟨here, next, leads, rest⟩ := visits
    refine ⟨here, next, ?_, ih rest fun c member => same c (List.mem_cons_of_mem _ member)⟩
    rw [same cell List.mem_cons_self, leads]

/-- Every cell that is visited is allocated. -/
theorem Segment.allocated (visits : Segment link first cells last) (member : cell ∈ cells) :
    ∃ next, link cell = some next := by
  induction cells generalizing first with
  | nil => simp at member
  | cons other cells ih =>
    obtain ⟨_, next, leads, rest⟩ := visits
    rcases List.mem_cons.mp member with rfl | later
    · exact ⟨next, leads⟩
    · exact ih rest later

/-- The cells visited up to the null pointer depend on the start alone. -/
theorem Segment.unique (visits : Segment link first cells none) (again : Segment link first more none) :
    cells = more := by
  induction cells generalizing first more with
  | nil =>
    cases visits
    cases more with
    | nil => rfl
    | cons cell more => exact absurd again.1 (by simp)
  | cons cell cells ih =>
    obtain ⟨rfl, next, leads, rest⟩ := visits
    cases more with
    | nil => exact absurd again (by simp [Segment])
    | cons other more =>
      obtain ⟨same, next', leads', rest'⟩ := again
      cases same
      cases leads.symm.trans leads'
      rw [ih rest rest']

/-- No cell is visited twice on the way to the null pointer: from there on the visits would repeat. -/
theorem Segment.nodup (visits : Segment link first cells none) : cells.Nodup := by
  induction cells generalizing first with
  | nil => exact List.nodup_nil
  | cons cell cells ih =>
    have whole := visits
    obtain ⟨rfl, next, leads, rest⟩ := visits
    refine List.nodup_cons.mpr ⟨fun member => ?_, ih rest⟩
    obtain ⟨before, after, rfl⟩ := List.append_of_mem member
    obtain ⟨middle, _, again⟩ := segment_append.mp rest
    obtain ⟨rfl, _⟩ := id again
    have same := congrArg List.length (whole.unique again)
    simp at same
    omega

/-- The link of the last cell leads somewhere else. -/
theorem Segment.redirect {target : Option A} (visits : Segment link first (cells ++ [cell]) last)
    (here : link' cell = some target) (same : ∀ c ∈ cells, link' c = link c) :
    Segment link' first (cells ++ [cell]) target := by
  obtain ⟨middle, left, right⟩ := segment_append.mp visits
  obtain ⟨at_, _⟩ := segment_singleton.mp right
  exact segment_append.mpr ⟨middle, left.congr same, segment_singleton.mpr ⟨at_, here⟩⟩

/-- A cell is passed over. -/
theorem Segment.unlink {gone : A} (visits : Segment link first (cells ++ cell :: gone :: more) last)
    (skip : link' cell = link gone) (same : ∀ c ∈ cells ++ more, link' c = link c) :
    Segment link' first (cells ++ cell :: more) last := by
  obtain ⟨middle, left, at_, next, leads, here, next', leads', right⟩ := segment_append.mp visits
  refine segment_append.mpr ⟨middle, left.congr fun c member => ?_, at_, next', skip.trans leads', right.congr ?_⟩
  · exact same c (List.mem_append_left _ member)
  · exact fun c member => same c (List.mem_append_right _ member)

/-- Doubly linked cells: the links in one direction visit them in order, those in the other direction
in the opposite order. -/
structure Chain (next prev : A → Option (Option A)) (head tail : A) (cells : List A) : Prop where
  forward : Segment next (some head) cells none
  backward : Segment prev (some tail) cells.reverse none

namespace Chain

variable {next prev next' prev' : A → Option (Option A)} {head tail : A}

theorem last_cell (chain : Chain next prev head tail (cells ++ [cell])) : tail = cell := by
  have back := chain.backward
  rw [List.reverse_append, List.reverse_singleton, List.singleton_append] at back
  exact Option.some.inj back.1

/-- A cell points to the one that is visited after it. -/
theorem next_link (chain : Chain next prev head tail (cells ++ cell :: more)) : next cell = some more.head? := by
  obtain ⟨_, _, _, target, leads, rest⟩ := segment_append.mp chain.forward
  cases more with
  | nil => rw [leads, show target = none from rest, List.head?_nil]
  | cons following more => rw [leads, rest.1, List.head?_cons]

/-- Of two neighbours the second one points back to the first one. -/
theorem back_link {a b : A} (chain : Chain next prev head tail (cells ++ a :: b :: more)) :
    prev b = some (some a) := by
  have back := chain.backward
  simp only [List.reverse_append, List.reverse_cons, List.append_assoc, List.cons_append, List.nil_append] at back
  obtain ⟨_, _, _, target, leads, here, _⟩ := segment_append.mp back
  rw [leads, here]

theorem split_tail (chain : Chain next prev head tail cells) : ∃ before, cells = before ++ [tail] := by
  rcases List.eq_nil_or_concat cells with rfl | ⟨before, last, rfl⟩
  · exact absurd chain.forward (by simp [Segment])
  · exact ⟨before, by rw [List.concat_eq_append] at chain ⊢; rw [chain.last_cell]⟩

theorem nodup (chain : Chain next prev head tail cells) : cells.Nodup := chain.forward.nodup

theorem single (forward : next head = some none) (backward : prev head = some none) :
    Chain next prev head head [head] :=
  ⟨segment_singleton.mpr ⟨rfl, forward⟩, segment_singleton.mpr ⟨rfl, backward⟩⟩

/-- A new cell behind the tail. -/
theorem push_back {new : A} (chain : Chain next prev head tail (cells ++ [tail]))
    (toNew : next' tail = some (some new)) (end_ : next' new = some none) (ahead : ∀ c ∈ cells, next' c = next c)
    (back : prev' new = some (some tail)) (behind : ∀ c ∈ cells ++ [tail], prev' c = prev c) :
    Chain next' prev' head new (cells ++ [tail] ++ [new]) := by
  refine ⟨segment_append.mpr ⟨some new, ?_, segment_singleton.mpr ⟨rfl, end_⟩⟩, ?_⟩
  · exact chain.forward.redirect toNew ahead
  · rw [List.reverse_append, List.reverse_singleton, List.singleton_append]
    refine ⟨rfl, some tail, back, chain.backward.congr fun c member => behind c ?_⟩
    exact List.mem_reverse.mp member

/-- The only cell behind the head is taken out. -/
theorem pop_only {gone : A} (chain : Chain next prev head tail [head, gone])
    (skip : next' head = next gone) (same : prev' head = prev head) : Chain next' prev' head head [head] := by
  obtain ⟨_, _, _, back⟩ := chain.backward
  obtain ⟨_, _, prevHead, nothing⟩ := back
  refine single ?_ (same.trans (nothing ▸ prevHead))
  obtain ⟨_, _, _, _, _, leads, nothing⟩ := chain.forward
  exact skip.trans (nothing ▸ leads)

/-- The first of several cells behind the head is taken out. -/
theorem pop_front {gone second : A} (chain : Chain next prev head tail (head :: gone :: second :: cells))
    (skip : next' head = next gone) (ahead : ∀ c ∈ second :: cells, next' c = next c)
    (back : prev' second = some (some head)) (behind : ∀ c ∈ head :: cells, prev' c = prev c) :
    Chain next' prev' head tail (head :: second :: cells) := by
  have shape : Chain next prev head tail ([] ++ head :: gone :: second :: cells) := chain
  constructor
  · exact shape.forward.unlink skip ahead
  · have backward := chain.backward
    simp only [List.reverse_cons, List.append_assoc, List.cons_append, List.nil_append] at backward ⊢
    refine backward.unlink (back.trans shape.back_link.symm) fun c member => behind c ?_
    simpa [or_comm] using member

/-- The tail is taken out. -/
theorem pop_back {gone : A} (chain : Chain next prev head tail (cells ++ [cell, gone]))
    (end_ : next' cell = some none) (ahead : ∀ c ∈ cells, next' c = next c)
    (behind : ∀ c ∈ cells ++ [cell], prev' c = prev c) : Chain next' prev' head cell (cells ++ [cell]) := by
  constructor
  · obtain ⟨middle, left, at_, _⟩ := segment_append.mp chain.forward
    exact segment_append.mpr ⟨middle, left.congr ahead, segment_singleton.mpr ⟨at_, end_⟩⟩
  · have backward := chain.backward
    rw [List.reverse_append, List.reverse_cons, List.reverse_singleton, List.singleton_append] at backward
    obtain ⟨_, target, _, rest⟩ := backward
    rw [List.reverse_append, List.reverse_singleton, List.singleton_append]
    obtain ⟨rfl, _⟩ := id rest
    refine Segment.congr rest fun c member => behind c ?_
    simpa [or_comm] using member

end Chain

end Linked
