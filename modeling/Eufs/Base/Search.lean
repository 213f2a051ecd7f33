import Mathlib.Tactic
import Mathlib.Algebra.BigOperators.Group.Finset.Basic
import Mathlib.Algebra.Order.BigOperators.Group.Finset
import Mathlib.Logic.Relation
import Mathlib.Data.Finset.Card

/-!
# Eufs.Base.Search — searching a finite graph

A graph is a list of edges.  `reach` is a breadth-first search with a queue; it visits what can be reached from its
start.  `explore` is a depth-first search with three colours and an explicit stack of frames (a node and how many of
its edges were tried); it collects the edges that lead back into the stack.  Started at every node it finds one exactly
when the graph has a cycle.
-/

namespace Eufs.Search

open Function

variable {α : Type} [DecidableEq α]
variable {a b x root c : α} {nodes queue : List α} {reached : Finset α} {colour : α → Colour}
  {node : α → Bool} {rest frames : List (α × ℕ)} {back : List (α × α)}

/-- The targets of the edges of `a`, in order. -/
def successors (edges : List (α × α)) (a : α) : List α := (edges.filter fun e => e.1 = a).map Prod.snd

/-- There is an edge. -/
def Edge (edges : List (α × α)) (a b : α) : Prop := (a, b) ∈ edges

variable {edges : List (α × α)}

theorem mem_successors : b ∈ successors edges a ↔ Edge edges a b := by
  simp only [successors, List.mem_map, List.mem_filter, decide_eq_true_eq, Edge]
  constructor
  · rintro ⟨⟨x, y⟩, ⟨h, rfl⟩, rfl⟩
    exact h
  · intro h
    exact ⟨(a, b), ⟨h, rfl⟩, rfl⟩

/-- The nodes that edges lead to. -/
def targets (edges : List (α × α)) : Finset α := (edges.map Prod.snd).toFinset

theorem mem_targets_of_mem_successors (h : b ∈ successors edges a) : b ∈ targets edges := by
  simp only [targets, List.mem_toFinset, List.mem_map]
  exact ⟨(a, b), mem_successors.mp h, rfl⟩

/-! ## Breadth first -/

/-- Reach the new ones among `nodes` and put them into the queue. -/
def discover (reached : Finset α) (queue nodes : List α) : Finset α × List α :=
  nodes.foldl (fun s x => if x ∈ s.1 then s else (insert x s.1, s.2 ++ [x])) (reached, queue)

@[simp] theorem discover_nil (reached : Finset α) (queue : List α) :
    discover reached queue [] = (reached, queue) := rfl

theorem discover_cons (reached : Finset α) (queue : List α) (x : α) (xs : List α) :
    discover reached queue (x :: xs) =
      if x ∈ reached then discover reached queue xs else discover (insert x reached) (queue ++ [x]) xs := by
  simp only [discover, List.foldl_cons]
  split_ifs <;> rfl

theorem mem_discover_reached : ∀ {reached : Finset α} {queue : List α},
    x ∈ (discover reached queue nodes).1 ↔ x ∈ reached ∨ x ∈ nodes := by
  induction nodes with
  | nil => simp
  | cons y ys ih =>
    intro reached queue
    rw [discover_cons]
    split_ifs with hy
    · rw [ih, List.mem_cons]
      constructor
      · rintro (h | h)
        exacts [.inl h, .inr (.inr h)]
      · rintro (h | rfl | h)
        exacts [.inl h, .inl hy, .inr h]
    · rw [ih, Finset.mem_insert, List.mem_cons]
      tauto

/-- The queue grows by the nodes that are reached for the first time. -/
theorem mem_discover_queue : ∀ {reached : Finset α} {queue : List α},
    x ∈ (discover reached queue nodes).2 ↔ x ∈ queue ∨ x ∈ nodes ∧ x ∉ reached := by
  induction nodes with
  | nil => simp
  | cons y ys ih =>
    intro reached queue
    rw [discover_cons]
    split_ifs with hy
    · rw [ih, List.mem_cons]
      constructor
      · rintro (h | h)
        exacts [.inl h, .inr ⟨.inr h.1, h.2⟩]
      · rintro (h | ⟨rfl | h, hn⟩)
        exacts [.inl h, absurd hy hn, .inr ⟨h, hn⟩]
    · rw [ih, Finset.mem_insert, List.mem_append, List.mem_singleton, List.mem_cons]
      by_cases hxy : x = y
      · subst hxy
        simp [hy]
      · simp [hxy]

/-- Each new node leaves the set of nodes not yet reached and joins the queue. -/
theorem discover_measure {nodesOf : Finset α} (hu : ∀ x ∈ nodes, x ∈ nodesOf) :
    ∀ (reached : Finset α) (queue : List α),
      (nodesOf \ (discover reached queue nodes).1).card + (discover reached queue nodes).2.length =
        (nodesOf \ reached).card + queue.length := by
  induction nodes with
  | nil => simp
  | cons y ys ih =>
    intro reached queue
    have hys : ∀ x ∈ ys, x ∈ nodesOf := fun x hx => hu x (List.mem_cons_of_mem _ hx)
    rw [discover_cons]
    split_ifs with hy
    · exact ih hys reached queue
    · have hmem : y ∈ nodesOf \ reached := Finset.mem_sdiff.mpr ⟨hu y List.mem_cons_self, hy⟩
      have hcard := Finset.card_erase_add_one hmem
      rw [ih hys, List.length_append, List.length_singleton, Finset.sdiff_insert]
      omega

/-- The nodes taken from the queue, in order. -/
def reach (edges : List (α × α)) (reached : Finset α) (queue : List α) : List α :=
  match queue with
  | [] => []
  | a :: rest =>
    let next := discover reached rest (successors edges a)
    a :: reach edges next.1 next.2
termination_by (targets edges \ reached).card + queue.length
decreasing_by
  have := discover_measure (fun x (hx : x ∈ successors edges a) => mem_targets_of_mem_successors hx) reached rest
  simp only [List.length_cons]
  omega

theorem reach_nil (reached : Finset α) : reach edges reached [] = [] := by
  rw [reach]

theorem reach_cons (reached : Finset α) (a : α) (rest : List α) :
    reach edges reached (a :: rest) =
      a :: reach edges (discover reached rest (successors edges a)).1
        (discover reached rest (successors edges a)).2 := by
  rw [reach]

/-- One pass of the search as a loop over the queue: what is reached, the queue and what was taken from it. -/
def reachStep (edges : List (α × α)) (s : Finset α × List α × List α) : Finset α × List α × List α :=
  match s with
  | (reached, [], visited) => (reached, [], visited)
  | (reached, a :: rest, visited) =>
    let next := discover reached rest (successors edges a)
    (next.1, next.2, visited ++ [a])

theorem reachStep_spec (reached : Finset α) (a : α) (rest visited : List α) :
    (targets edges \ (reachStep edges (reached, a :: rest, visited)).1).card +
        (reachStep edges (reached, a :: rest, visited)).2.1.length <
          (targets edges \ reached).card + (a :: rest).length ∧
    (reachStep edges (reached, a :: rest, visited)).2.2 ++ reach edges (reachStep edges (reached, a :: rest, visited)).1
        (reachStep edges (reached, a :: rest, visited)).2.1 = visited ++ reach edges reached (a :: rest) := by
  have := discover_measure (fun x (hx : x ∈ successors edges a) => mem_targets_of_mem_successors hx) reached rest
  refine ⟨?_, ?_⟩
  · simp only [reachStep, List.length_cons]
    omega
  · rw [reach_cons]
    simp only [reachStep, List.append_assoc, List.singleton_append]

/-- What is visited was in the queue or is reached from it. -/
theorem reachable_of_mem_reach (hq : ∀ y ∈ queue, Relation.ReflTransGen (Edge edges) root y)
    (h : x ∈ reach edges reached queue) : Relation.ReflTransGen (Edge edges) root x := by
  induction reached, queue using reach.induct edges with
  | case1 reached =>
    rw [reach_nil] at h
    exact absurd h List.not_mem_nil
  | case2 reached a rest next ih =>
    have ha := hq a List.mem_cons_self
    rw [reach_cons] at h
    rcases List.mem_cons.mp h with rfl | h
    · exact ha
    · refine ih (fun y hy => ?_) h
      rcases mem_discover_queue.mp hy with hy | ⟨hy, -⟩
      · exact hq y (List.mem_cons_of_mem _ hy)
      · exact ha.tail (mem_successors.mp hy)

/-- Everything in the queue is visited, and so is every unreached successor of what is visited. -/
theorem mem_reach_of_mem_queue (h : x ∈ queue) : x ∈ reach edges reached queue := by
  induction reached, queue using reach.induct edges with
  | case1 reached => exact absurd h List.not_mem_nil
  | case2 reached a rest next ih =>
    rw [reach_cons]
    rcases List.mem_cons.mp h with rfl | h
    · exact List.mem_cons_self
    · exact List.mem_cons_of_mem _ (ih (mem_discover_queue.mpr (.inl h)))

theorem mem_reach_of_edge {y : α} (hxy : Edge edges x y) (h : x ∈ reach edges reached queue) :
    y ∈ reached ∨ y ∈ reach edges reached queue := by
  induction reached, queue using reach.induct edges with
  | case1 reached =>
    rw [reach_nil] at h
    exact absurd h List.not_mem_nil
  | case2 reached a rest next ih =>
    by_cases hy : y ∈ reached
    · exact .inl hy
    rw [reach_cons] at h ⊢
    rcases List.mem_cons.mp h with rfl | h
    · have hq : y ∈ next.2 := mem_discover_queue.mpr (.inr ⟨mem_successors.mpr hxy, hy⟩)
      exact .inr (List.mem_cons_of_mem _ (mem_reach_of_mem_queue hq))
    · rcases ih h with hn | hn
      · -- reached in this round, so it went into the queue
        rcases mem_discover_reached.mp hn with hn | hn
        · exact absurd hn hy
        · have hq : y ∈ next.2 := mem_discover_queue.mpr (.inr ⟨hn, hy⟩)
          exact .inr (List.mem_cons_of_mem _ (mem_reach_of_mem_queue hq))
      · exact .inr (List.mem_cons_of_mem _ hn)

/-- The search from one node visits exactly what can be reached from it. -/
theorem mem_reach_singleton : x ∈ reach edges {root} [root] ↔ Relation.ReflTransGen (Edge edges) root x := by
  have hroot : root ∈ reach edges {root} [root] := mem_reach_of_mem_queue (List.mem_singleton_self root)
  constructor
  · intro h
    refine reachable_of_mem_reach (fun y hy => ?_) h
    rw [List.mem_singleton.mp hy]
  · intro h
    induction h with
    | refl => exact hroot
    | tail _ hyz ih =>
      rcases mem_reach_of_edge hyz ih with h | h
      · rw [Finset.mem_singleton.mp h]
        exact hroot
      · exact h

/-! ## Depth first -/

inductive Colour where
  | unseen | active | done
  deriving DecidableEq

/-- What is left to do: the edges not yet tried of each frame, and of each node that may still get a frame. -/
def work (edges : List (α × α)) (colour : α → Colour) (frames : List (α × ℕ)) : ℕ :=
  (frames.map fun f => (successors edges f.1).length - f.2 + 1).sum +
    ∑ x ∈ targets edges with colour x = .unseen, ((successors edges x).length + 2)

/-- A node that leaves the unseen ones pays for its frame. -/
theorem sum_unseen_update {k : Colour} (hk : k ≠ .unseen) (hc : colour c = .unseen) (hm : c ∈ targets edges)
    (w : α → ℕ) :
    ∑ x ∈ targets edges with update colour c k x = .unseen, w x + w c =
      ∑ x ∈ targets edges with colour x = .unseen, w x := by
  have hmem : c ∈ (targets edges).filter fun x => colour x = .unseen := Finset.mem_filter.mpr ⟨hm, hc⟩
  have heq : ((targets edges).filter fun x => update colour c k x = .unseen) =
      ((targets edges).filter fun x => colour x = .unseen).erase c := by
    ext x
    by_cases hx : x = c
    · subst hx
      simp [hk]
    · simp [hx]
  rw [heq, Finset.sum_erase_add _ _ hmem]

theorem sum_unseen_le (edges : List (α × α)) (colour : α → Colour) (a : α) {k : Colour} (hk : k ≠ .unseen)
    (w : α → ℕ) :
    ∑ x ∈ targets edges with update colour a k x = .unseen, w x ≤
      ∑ x ∈ targets edges with colour x = .unseen, w x := by
  refine Finset.sum_le_sum_of_subset fun x hx => ?_
  rw [Finset.mem_filter] at hx ⊢
  by_cases hxa : x = a
  · subst hxa
    exact absurd (by simpa using hx.2) hk
  · exact ⟨hx.1, by simpa [hxa] using hx.2⟩

theorem work_pop (edges : List (α × α)) (colour : α → Colour) (a : α) (k : ℕ) (rest : List (α × ℕ)) :
    work edges (update colour a .done) rest < work edges colour ((a, k) :: rest) := by
  have := sum_unseen_le edges colour a (k := .done) (by decide) fun x => (successors edges x).length + 2
  simp only [work, List.map_cons, List.sum_cons]
  omega

theorem work_advance {k : ℕ} (hget : (successors edges a)[k]? = some c) (colour : α → Colour)
    (rest : List (α × ℕ)) : work edges colour ((a, k + 1) :: rest) < work edges colour ((a, k) :: rest) := by
  obtain ⟨hk, -⟩ := List.getElem?_eq_some_iff.mp hget
  simp only [work, List.map_cons, List.sum_cons]
  omega

theorem work_push {k : ℕ} (hget : (successors edges a)[k]? = some c) (hu : colour c = .unseen)
    (rest : List (α × ℕ)) :
    work edges (update colour c .active) ((c, 0) :: (a, k + 1) :: rest) < work edges colour ((a, k) :: rest) := by
  obtain ⟨hk, heq⟩ := List.getElem?_eq_some_iff.mp hget
  have hm := mem_targets_of_mem_successors (List.mem_of_getElem heq)
  have := sum_unseen_update (k := .active) (by decide) hu hm fun x => (successors edges x).length + 2
  simp only [work, List.map_cons, List.sum_cons]
  omega

/-- Follow the frames to their end.  `node` says which successors are followed; `back` are the edges into the stack. -/
def explore (edges : List (α × α)) (node : α → Bool) (colour : α → Colour) (frames : List (α × ℕ))
    (back : List (α × α)) : (α → Colour) × List (α × α) :=
  match frames with
  | [] => (colour, back)
  | (a, k) :: rest =>
    match _hc : (successors edges a)[k]? with
    | none => explore edges node (update colour a .done) rest back
    | some c =>
      if node c = false then explore edges node colour ((a, k + 1) :: rest) back
      else
        match _hu : colour c with
        | .active => explore edges node colour ((a, k + 1) :: rest) (back ++ [(a, c)])
        | .unseen =>
          explore edges node (update colour c .active) ((c, 0) :: (a, k + 1) :: rest) back
        | .done => explore edges node colour ((a, k + 1) :: rest) back
termination_by work edges colour frames
decreasing_by
  · exact work_pop edges colour a k rest
  · exact work_advance _hc colour rest
  · exact work_advance _hc colour rest
  · exact work_push _hc _hu rest
  · exact work_advance _hc colour rest

theorem explore_nil (node : α → Bool) (colour : α → Colour) (back : List (α × α)) :
    explore edges node colour [] back = (colour, back) := by
  rw [explore]

theorem explore_of_none {k : ℕ} (h : (successors edges a)[k]? = none) :
    explore edges node colour ((a, k) :: rest) back =
      explore edges node (update colour a .done) rest back := by
  rw [explore]
  split
  · rfl
  · simp_all

theorem explore_of_some {k : ℕ} (h : (successors edges a)[k]? = some c) :
    explore edges node colour ((a, k) :: rest) back =
      if node c = false then explore edges node colour ((a, k + 1) :: rest) back
      else match colour c with
        | .active => explore edges node colour ((a, k + 1) :: rest) (back ++ [(a, c)])
        | .unseen => explore edges node (update colour c .active) ((c, 0) :: (a, k + 1) :: rest) back
        | .done => explore edges node colour ((a, k + 1) :: rest) back := by
  rw [explore]
  split
  · simp_all
  · rename_i c' hc'
    obtain rfl : c' = c := by simp_all
    refine if_congr Iff.rfl rfl ?_
    split <;> simp_all

/-- One pass of the search as a loop over the stack. -/
def exploreStep (edges : List (α × α)) (node : α → Bool)
    (s : (α → Colour) × List (α × ℕ) × List (α × α)) :
    (α → Colour) × List (α × ℕ) × List (α × α) :=
  match s with
  | (colour, [], back) => (colour, [], back)
  | (colour, (a, k) :: rest, back) =>
    match (successors edges a)[k]? with
    | none => (update colour a .done, rest, back)
    | some c =>
      if node c = false then (colour, (a, k + 1) :: rest, back)
      else
        match colour c with
        | .active => (colour, (a, k + 1) :: rest, back ++ [(a, c)])
        | .unseen => (update colour c .active, (c, 0) :: (a, k + 1) :: rest, back)
        | .done => (colour, (a, k + 1) :: rest, back)

theorem exploreStep_spec (node : α → Bool) (colour : α → Colour) (f : α × ℕ) (rest : List (α × ℕ))
    (back : List (α × α)) :
    work edges (exploreStep edges node (colour, f :: rest, back)).1
      (exploreStep edges node (colour, f :: rest, back)).2.1 < work edges colour (f :: rest) ∧
    explore edges node (exploreStep edges node (colour, f :: rest, back)).1
      (exploreStep edges node (colour, f :: rest, back)).2.1 (exploreStep edges node (colour, f :: rest, back)).2.2 =
        explore edges node colour (f :: rest) back := by
  obtain ⟨a, k⟩ := f
  simp only [exploreStep]
  cases hget : (successors edges a)[k]? with
  | none => exact ⟨work_pop edges colour a k rest, (explore_of_none hget).symm⟩
  | some c =>
    rw [explore_of_some hget]
    dsimp only
    split_ifs
    · exact ⟨work_advance hget colour rest, rfl⟩
    · cases hu : colour c with
      | active => exact ⟨work_advance hget colour rest, rfl⟩
      | unseen => exact ⟨work_push hget hu rest, rfl⟩
      | done => exact ⟨work_advance hget colour rest, rfl⟩

/-- Start a search at each node of `starts` that was not seen before. -/
def exploreAll (edges : List (α × α)) (node : α → Bool) (starts : List α) : (α → Colour) × List (α × α) :=
  starts.foldl (fun s a =>
    if s.1 a = .unseen then explore edges node (update s.1 a .active) [(a, 0)] s.2 else s)
    (fun _ => .unseen, [])

/-- The frames are a path, the newest node last reached, and no other node is active. -/
structure Stacked (edges : List (α × α)) (colour : α → Colour) (frames : List (α × ℕ)) : Prop where
  chain : (frames.map Prod.fst).IsChain fun x y => Edge edges y x
  active : ∀ x, colour x = .active → x ∈ frames.map Prod.fst

omit [DecidableEq α] in
theorem reachable_top {l : List α} :
    ∀ {a : α}, (a :: l).IsChain (fun x y => Edge edges y x) → x ∈ a :: l →
    Relation.ReflTransGen (Edge edges) x a := by
  induction l with
  | nil =>
    intro a _ h
    rw [List.mem_singleton.mp h]
  | cons b l ih =>
    intro a hc h
    obtain ⟨hba, hc⟩ := List.isChain_cons_cons.mp hc
    rcases List.mem_cons.mp h with rfl | h
    · exact .refl
    · exact (ih hc h).tail hba

namespace Stacked

variable {colour : α → Colour} {a c : α} {k : ℕ} {rest : List (α × ℕ)}

omit [DecidableEq α] in
theorem advance (h : Stacked edges colour ((a, k) :: rest)) : Stacked edges colour ((a, k + 1) :: rest) :=
  ⟨h.chain, h.active⟩

theorem pop (h : Stacked edges colour ((a, k) :: rest)) : Stacked edges (update colour a .done) rest := by
  refine ⟨List.IsChain.of_cons h.chain, fun x hx => ?_⟩
  by_cases hxa : x = a
  · subst hxa
    simp at hx
  · rw [update_of_ne hxa] at hx
    exact List.mem_of_ne_of_mem hxa (h.active x hx)

theorem push (h : Stacked edges colour ((a, k) :: rest)) (hc : Edge edges a c) :
    Stacked edges (update colour c .active) ((c, 0) :: (a, k + 1) :: rest) := by
  refine ⟨List.isChain_cons_cons.mpr ⟨hc, h.chain⟩, fun x hx => ?_⟩
  by_cases hxc : x = c
  · rw [hxc]
    exact List.mem_cons_self
  · rw [update_of_ne hxc] at hx
    exact List.mem_cons_of_mem _ (h.active x hx)

end Stacked

/-- The edges that a search follows. -/
def followed (edges : List (α × α)) (node : α → Bool) : List (α × α) := edges.filter fun e => node e.2

omit [DecidableEq α] in
theorem edge_followed : Edge (followed edges node) a b ↔ Edge edges a b ∧ node b = true :=
  List.mem_filter

theorem followed_of_some {k : ℕ} (hget : (successors edges a)[k]? = some c) (hnode : ¬ node c = false) :
    Edge (followed edges node) a c :=
  edge_followed.mpr ⟨mem_successors.mp (List.mem_of_getElem? hget), by simpa using hnode⟩

/-- An edge that leads back into the stack closes a cycle. -/
theorem explore_back (node : α → Bool) (back : List (α × α))
    (h : Stacked (followed edges node) colour frames) :
    (∀ e ∈ (explore edges node colour frames back).2, e ∈ back ∨
      Relation.TransGen (Edge (followed edges node)) e.2 e.2) ∧
      Stacked (followed edges node) (explore edges node colour frames back).1 [] := by
  induction colour, frames, back using explore.induct edges node with
  | case1 colour back =>
    rw [explore_nil]
    exact ⟨fun e he => .inl he, h⟩
  | case2 colour back a k rest hn ih =>
    rw [explore_of_none hn]
    exact ih h.pop
  | case3 colour back a k rest c hget hnode ih =>
    rw [explore_of_some hget, if_pos hnode]
    exact ih h.advance
  | case4 colour back a k rest c hget hnode hact ih =>
    have hcycle := Relation.TransGen.tail' (reachable_top h.chain (h.active c hact)) (followed_of_some hget hnode)
    rw [explore_of_some hget, if_neg hnode, hact]
    refine ⟨fun e he => ?_, (ih h.advance).2⟩
    rcases (ih h.advance).1 e he with he | he
    · rcases List.mem_append.mp he with he | he
      · exact .inl he
      · rw [List.mem_singleton.mp he]
        exact .inr hcycle
    · exact .inr he
  | case5 colour back a k rest c hget hnode hun ih =>
    rw [explore_of_some hget, if_neg hnode, hun]
    exact ih (h.push (followed_of_some hget hnode))
  | case6 colour back a k rest c hget hnode hdone ih =>
    rw [explore_of_some hget, if_neg hnode, hdone]
    exact ih h.advance

theorem eq_nil_of_explore (h : (explore edges node colour frames back).2 = []) : back = [] := by
  induction colour, frames, back using explore.induct edges node with
  | case1 colour back =>
    rw [explore_nil] at h
    exact h
  | case2 colour back a k rest hn ih =>
    rw [explore_of_none hn] at h
    exact ih h
  | case3 colour back a k rest c hget hnode ih =>
    rw [explore_of_some hget, if_pos hnode] at h
    exact ih h
  | case4 colour back a k rest c hget hnode hact ih =>
    rw [explore_of_some hget, if_neg hnode, hact] at h
    exact (List.append_eq_nil_iff.mp (ih h)).1
  | case5 colour back a k rest c hget hnode hun ih =>
    rw [explore_of_some hget, if_neg hnode, hun] at h
    exact ih h
  | case6 colour back a k rest c hget hnode hdone ih =>
    rw [explore_of_some hget, if_neg hnode, hdone] at h
    exact ih h

/-- Finished nodes lead to finished nodes only, and not back to themselves. -/
structure Settled (edges : List (α × α)) (colour : α → Colour) : Prop where
  closed : ∀ x y, colour x = .done → Edge edges x y → colour y = .done
  acyclic : ∀ x, colour x = .done → ¬ Relation.TransGen (Edge edges) x x

namespace Settled

variable {colour colour' : α → Colour} {a : α}

omit [DecidableEq α] in
theorem congr (h : Settled edges colour) (hdone : ∀ x, colour' x = .done ↔ colour x = .done) :
    Settled edges colour' :=
  ⟨fun x y hx hxy => (hdone y).mpr (h.closed x y ((hdone x).mp hx) hxy), fun x hx => h.acyclic x ((hdone x).mp hx)⟩

omit [DecidableEq α] in
/-- What a node with finished successors leads to is finished. -/
theorem done_of_transGen (h : Settled edges colour) (hsucc : ∀ y, Edge edges a y → colour y = .done)
    (hx : Relation.TransGen (Edge edges) a x) : colour x = .done := by
  induction hx with
  | single hy => exact hsucc _ hy
  | tail _ hyz ih => exact h.closed _ _ ih hyz

theorem finish (h : Settled edges colour) (hsucc : ∀ y, Edge edges a y → colour y = .done) :
    Settled edges (update colour a .done) := by
  have hkeep : ∀ y, colour y = .done → update colour a .done y = .done := fun y hy => by
    by_cases hya : y = a
    · rw [hya, update_self]
    · rw [update_of_ne hya, hy]
  constructor
  · intro x y hx hxy
    by_cases hxa : x = a
    · exact hkeep y (hsucc y (hxa ▸ hxy))
    · rw [update_of_ne hxa] at hx
      exact hkeep y (h.closed x y hx hxy)
  · intro x hx hcycle
    by_cases hxa : x = a
    · -- the cycle runs through finished nodes, so it was there before
      subst hxa
      exact h.acyclic x (h.done_of_transGen hsucc hcycle) hcycle
    · rw [update_of_ne hxa] at hx
      exact h.acyclic x hx hcycle

end Settled

/-- The edges tried by the frames lead to finished nodes or up the stack; `above` are the nodes above these frames. -/
def Tried (edges : List (α × α)) (node : α → Bool) (colour : α → Colour) :
    List α → List (α × ℕ) → Prop
  | _, [] => True
  | above, (a, k) :: rest =>
    (∀ c ∈ (successors edges a).take k, node c = true → colour c = .done ∨ c ∈ above) ∧
      Tried edges node colour (a :: above) rest

theorem Tried.mono {node : α → Bool} {colour colour' : α → Colour} :
    ∀ {frames : List (α × ℕ)} {above above' : List α},
    (∀ c, colour c = .done ∨ c ∈ above → colour' c = .done ∨ c ∈ above') →
    Tried edges node colour above frames →
    Tried edges node colour' above' frames
  | [], _, _, _, _ => trivial
  | (a, k) :: rest, above, above', h, ht => by
    refine ⟨fun c hc hn => h c (ht.1 c hc hn), ht.2.mono fun c hc => ?_⟩
    rcases hc with hc | hc
    · exact (h c (.inl hc)).imp_right (List.mem_cons_of_mem _)
    · rcases List.mem_cons.mp hc with rfl | hc
      · exact .inr List.mem_cons_self
      · exact (h c (.inr hc)).imp_right (List.mem_cons_of_mem _)

theorem Tried.advance {k : ℕ} {above : List α} (h : Tried edges node colour above ((a, k) :: rest))
    (hget : (successors edges a)[k]? = some c) (hc : node c = true → colour c = .done ∨ c ∈ above) :
    Tried edges node colour above ((a, k + 1) :: rest) := by
  refine ⟨fun x hx hn => ?_, h.2⟩
  rw [List.take_add_one, hget] at hx
  rcases List.mem_append.mp hx with hx | hx
  · exact h.1 x hx hn
  · obtain rfl := List.mem_singleton.mp hx
    exact hc hn

/-- A search that finds no edge back into the stack settles what it finishes, and forgets no node. -/
theorem explore_settled (node : α → Bool) (hnil : (explore edges node colour frames back).2 = [])
    (ht : Tried edges node colour [] frames) (hs : Settled (followed edges node) colour) :
    Settled (followed edges node) (explore edges node colour frames back).1 ∧
      ∀ x, colour x ≠ .unseen → (explore edges node colour frames back).1 x ≠ .unseen := by
  induction colour, frames, back using explore.induct edges node with
  | case1 colour back =>
    rw [explore_nil]
    exact ⟨hs, fun x hx => hx⟩
  | case2 colour back a k rest hn ih =>
    rw [explore_of_none hn] at hnil ⊢
    have hsucc : ∀ y, Edge (followed edges node) a y → colour y = .done := by
      intro y hy
      obtain ⟨hy, hny⟩ := edge_followed.mp hy
      have hmem : y ∈ (successors edges a).take k := by
        rw [List.take_of_length_le (List.getElem?_eq_none_iff.mp hn)]
        exact mem_successors.mpr hy
      exact (ht.1 y hmem hny).resolve_right List.not_mem_nil
    have hmono : Tried edges node (update colour a .done) [] rest := by
      refine ht.2.mono fun c hc => .inl ?_
      by_cases hca : c = a
      · rw [hca, update_self]
      · rw [update_of_ne hca]
        exact hc.resolve_right fun hm => hca (List.mem_singleton.mp hm)
    obtain ⟨h1, h2⟩ := ih hnil hmono (hs.finish hsucc)
    refine ⟨h1, fun x hx => h2 x ?_⟩
    by_cases hxa : x = a
    · rw [hxa, update_self]
      decide
    · rwa [update_of_ne hxa]
  | case3 colour back a k rest c hget hnode ih =>
    rw [explore_of_some hget, if_pos hnode] at hnil ⊢
    exact ih hnil (ht.advance hget fun hc => by rw [hnode] at hc; cases hc) hs
  | case4 colour back a k rest c hget hnode hact ih =>
    rw [explore_of_some hget, if_neg hnode, hact] at hnil
    exact absurd (eq_nil_of_explore hnil) (by simp)
  | case5 colour back a k rest c hget hnode hun ih =>
    rw [explore_of_some hget, if_neg hnode, hun] at hnil ⊢
    have hdone : ∀ x, update colour c .active x = .done ↔ colour x = .done := by
      intro x
      by_cases hxc : x = c
      · rw [hxc, update_self, hun]
        simp
      · rw [update_of_ne hxc]
    have htried : Tried edges node (update colour c .active) [] ((c, 0) :: (a, k + 1) :: rest) := by
      refine ⟨fun x hx => absurd hx (by simp), ?_⟩
      have hone : Tried edges node (update colour c .active) [c] ((a, k) :: rest) :=
        ht.mono fun x hx => .inl ((hdone x).mpr (hx.resolve_right List.not_mem_nil))
      exact hone.advance hget fun _ => .inr List.mem_cons_self
    obtain ⟨h1, h2⟩ := ih hnil htried (hs.congr hdone)
    refine ⟨h1, fun x hx => h2 x ?_⟩
    by_cases hxc : x = c
    · rw [hxc, update_self]
      decide
    · rwa [update_of_ne hxc]
  | case6 colour back a k rest c hget hnode hdone ih =>
    rw [explore_of_some hget, if_neg hnode, hdone] at hnil ⊢
    exact ih hnil (ht.advance hget fun _ => .inl hdone) hs

/-- The state between two searches. -/
structure Swept (edges : List (α × α)) (node : α → Bool) (seen : List α)
  (s : (α → Colour) × List (α × α)) : Prop where
  idle : Stacked (followed edges node) s.1 []
  cycles : ∀ e ∈ s.2, Relation.TransGen (Edge (followed edges node)) e.2 e.2
  settled : s.2 = [] → Settled (followed edges node) s.1
  seen : s.2 = [] → ∀ a ∈ seen, s.1 a ≠ .unseen

theorem exploreAll_swept (node : α → Bool) (starts : List α) :
    Swept edges node starts (exploreAll edges node starts) := by
  induction starts using List.reverseRecOn with
  | nil =>
    refine ⟨⟨List.isChain_nil, fun x hx => ?_⟩, fun e he => absurd he List.not_mem_nil,
      fun _ => ⟨fun x y hx => ?_, fun x hx => ?_⟩, fun _ a ha => absurd ha List.not_mem_nil⟩
    all_goals cases hx
  | append_singleton l a ih =>
    have hfold : exploreAll edges node (l ++ [a]) = if (exploreAll edges node l).1 a = .unseen then
        explore edges node (update (exploreAll edges node l).1 a .active) [(a, 0)] (exploreAll edges node l).2
        else exploreAll edges node l := by
      rw [exploreAll, List.foldl_append]
      rfl
    rw [hfold]
    generalize exploreAll edges node l = s at ih
    split_ifs with hu
    · have hstack : Stacked (followed edges node) (update s.1 a .active) [(a, 0)] := by
        refine ⟨List.isChain_singleton a, fun x hx => ?_⟩
        by_cases hxa : x = a
        · rw [hxa]
          exact List.mem_cons_self
        · rw [update_of_ne hxa] at hx
          exact absurd (ih.idle.active x hx) List.not_mem_nil
      have hdone : ∀ x, update s.1 a .active x = .done ↔ s.1 x = .done := by
        intro x
        by_cases hxa : x = a
        · rw [hxa, update_self, hu]
          simp
        · rw [update_of_ne hxa]
      have htried : Tried edges node (update s.1 a .active) [] [(a, 0)] :=
        ⟨fun x hx => absurd hx (by simp), trivial⟩
      obtain ⟨hback, hidle⟩ := explore_back node s.2 hstack
      have hsettled := fun hnil => explore_settled node hnil htried ((ih.settled (eq_nil_of_explore hnil)).congr hdone)
      refine ⟨hidle, fun e he => (hback e he).elim (ih.cycles e) id, fun hnil => (hsettled hnil).1,
        fun hnil x hx => ?_⟩
      refine (hsettled hnil).2 x ?_
      by_cases hxa : x = a
      · rw [hxa, update_self]
        decide
      · rw [update_of_ne hxa]
        exact ih.seen (eq_nil_of_explore hnil) x
          ((List.mem_append.mp hx).resolve_right fun h => hxa (List.mem_singleton.mp h))
    · refine ⟨ih.idle, ih.cycles, ih.settled, fun hnil x hx => ?_⟩
      rcases List.mem_append.mp hx with hx | hx
      · exact ih.seen hnil x hx
      · rwa [List.mem_singleton.mp hx]

/-- A search from every node finds an edge back into its stack exactly when the graph has a cycle. -/
theorem exploreAll_eq_nil_iff {starts : List α} (hstarts : ∀ x, node x = true → x ∈ starts) :
    (exploreAll edges node starts).2 = [] ↔ ∀ x, ¬ Relation.TransGen (Edge (followed edges node)) x x := by
  have h : Swept edges node starts (exploreAll edges node starts) := exploreAll_swept node starts
  constructor
  · intro hnil x hcycle
    obtain ⟨y, -, hy⟩ := Relation.TransGen.tail'_iff.mp hcycle
    have hseen := h.seen hnil x (hstarts x (edge_followed.mp hy).2)
    cases hc : (exploreAll edges node starts).1 x with
    | unseen => exact hseen hc
    | active => exact absurd (h.idle.active x hc) List.not_mem_nil
    | done => exact (h.settled hnil).acyclic x hc hcycle
  · intro hacyclic
    exact List.eq_nil_iff_forall_not_mem.mpr fun e he => hacyclic _ (h.cycles e he)

theorem exploreAll_of_acyclic (hacyclic : ∀ x, ¬ Relation.TransGen (Edge edges) x x) (starts : List α) :
    (exploreAll edges node starts).2 = [] := by
  have hle : Edge (followed edges node) ≤ Edge edges := fun _ _ h => (edge_followed.mp h).1
  exact List.eq_nil_iff_forall_not_mem.mpr fun e he => hacyclic e.2
    (Relation.TransGen.mono hle _ _ ((exploreAll_swept node starts).cycles e he))

omit [DecidableEq α] in
/-- Where everything is reached from a node without edges into it and no node has two parents, there is no cycle. -/
theorem acyclic_of_unique_parent (hroot : ∀ x, ¬ Edge edges x root)
    (hparent : ∀ x y c, Edge edges x c → Edge edges y c → x = y)
    (hreach : ∀ x y, Edge edges x y → Relation.ReflTransGen (Edge edges) root y) (x : α) :
    ¬ Relation.TransGen (Edge edges) x x := by
  -- along a path from the root no node lies on a cycle: a cycle through a child runs through its only parent
  have hpath : ∀ y, Relation.ReflTransGen (Edge edges) root y → ¬ Relation.TransGen (Edge edges) y y := by
    intro y hy
    induction hy with
    | refl =>
      intro hc
      obtain ⟨z, -, hz⟩ := Relation.TransGen.tail'_iff.mp hc
      exact hroot z hz
    | tail _ hyz ih =>
      intro hc
      obtain ⟨w, hw, hwz⟩ := Relation.TransGen.tail'_iff.mp hc
      rw [hparent _ _ _ hwz hyz] at hw
      exact ih (Relation.TransGen.head' hyz hw)
  intro hc
  obtain ⟨z, -, hz⟩ := Relation.TransGen.tail'_iff.mp hc
  exact hpath x (hreach z x hz) hc

end Eufs.Search
