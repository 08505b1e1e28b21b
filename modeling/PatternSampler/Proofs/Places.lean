import PatternSampler.Pattern.Node
import PatternSampler.Sample.Event

/-!
# Places in a pattern

A `Path` names a place in a pattern. `Node.at?` finds the node there, and `Node.groupPlaces` lists
the places of all capturing groups, in the order in which their brackets open: a group comes before
those inside it and those that it closes before (`pairwise_groupPlaces`). A capturing group that is
found at a place is in the list (`mem_groupPlaces`), so the length of the list bounds how many
groups can be told apart.
-/

namespace PatternSampler

/-- A group closes before a place: they lie under two children of a node, the group under the one
that comes first. -/
def ClosesBefore (group r : Path) : Prop :=
  ∃ top i j, i < j ∧ (i :: top) <:+ group ∧ (j :: top) <:+ r

/-- A place lies under only one child of a node. -/
theorem child_unique {i j : Nat} {top path : Path} (hi : (i :: top) <:+ path)
    (hj : (j :: top) <:+ path) : i = j := by
  have heq : i :: top = j :: top :=
    (List.suffix_of_suffix_length_le hi hj (Nat.le_refl _)).eq_of_length rfl
  exact (List.cons.inj heq).1

/-- A node does not close before what lies under it. -/
theorem not_closesBefore_of_suffix {group r : Path} (h : group <:+ r) : ¬ClosesBefore group r := by
  rintro ⟨top, i, j, hlt, hi, hj⟩
  exact absurd (child_unique (hi.trans h) hj) (Nat.ne_of_lt hlt)

/-- Of two places not each closes before the other. -/
theorem ClosesBefore.asymm {group r : Path} (h : ClosesBefore group r) : ¬ClosesBefore r group := by
  obtain ⟨top, i, j, hij, hi, hj⟩ := h
  rintro ⟨top', k, l, hkl, hk, hl⟩
  rcases Nat.lt_trichotomy top.length top'.length with hlt | heq | hgt
  · -- The second node lies under one child of the first.
    have hi' := List.suffix_of_suffix_length_le hi ((List.suffix_cons l top').trans hl) hlt
    have hj' := List.suffix_of_suffix_length_le hj ((List.suffix_cons k top').trans hk) hlt
    exact absurd (child_unique hi' hj') (Nat.ne_of_lt hij)
  · have htop : top = top' :=
      (List.suffix_of_suffix_length_le ((List.suffix_cons i top).trans hi)
        ((List.suffix_cons l top').trans hl) (Nat.le_of_eq heq)).eq_of_length heq
    subst htop
    have hil := child_unique hi hl
    have hjk := child_unique hj hk
    omega
  · have hk' := List.suffix_of_suffix_length_le hk ((List.suffix_cons j top).trans hj) hgt
    have hl' := List.suffix_of_suffix_length_le hl ((List.suffix_cons i top).trans hi) hgt
    exact absurd (child_unique hk' hl') (Nat.ne_of_lt hkl)

namespace Node

/-- The child of a node with a given place. -/
def child? : Node → Nat → Option Node
  | .alternate _ l _, 0 => some l
  | .alternate _ _ r, 1 => some r
  | .sequence _ body, i => body[i]?
  | .charset _ body _, i => body[i]?
  | .group _ _ body, 0 => some body
  | .quantified _ body _, 0 => some body
  | .quantified _ _ q, 1 => some q
  | .range _ first _, 0 => some first
  | .range _ _ last, 1 => some last
  | _, _ => none

/-- The node at a place in a tree. -/
def at? (root : Node) : Path → Option Node
  | [] => some root
  | i :: path => (root.at? path).bind (·.child? i)

/-- The children of a node are found under its place. -/
theorem at_child {root parent : Node} {path : Path} (h : root.at? path = some parent) (i : Nat) :
    root.at? (i :: path) = parent.child? i := by
  rw [at?, h]
  rfl

/-- Some nodes are the children under a place from a given child on, up to the last one. -/
def Row (root : Node) (nodes : List Node) (path : Path) (place : Nat) : Prop :=
  ∀ i, root.at? ((place + i) :: path) = nodes[i]?

namespace Row

variable {root n : Node} {ns : List Node} {path : Path} {place : Nat}

/-- A node that holds a list has it as its row of children. -/
theorem of_at {parent : Node} (h : root.at? path = some parent)
    (hchild : ∀ i, parent.child? i = ns[i]?) : Row root ns path 0 := by
  intro i
  rw [Nat.zero_add, at_child h, hchild]

/-- The first of a row is found at the place where the row starts. -/
theorem head (h : Row root (n :: ns) path place) : root.at? (place :: path) = some n := h 0

/-- The others are a row that starts one place later. -/
theorem tail (h : Row root (n :: ns) path place) : Row root ns path (place + 1) := by
  intro i
  rw [Nat.add_assoc, Nat.add_comm 1 i]
  exact h (i + 1)

end Row

mutual

/-- Whether something holds of every node of a tree. -/
def everywhere (P : Node → Bool) (n : Node) : Bool :=
  P n && match n with
    | .alternate _ l r | .quantified _ l r | .range _ l r => l.everywhere P && r.everywhere P
    | .sequence _ body | .charset _ body _ => everywhereAll P body
    | .group _ _ body => body.everywhere P
    | _ => true

/-- Whether something holds of every node of some trees. -/
def everywhereAll (P : Node → Bool) : List Node → Bool
  | [] => true
  | n :: ns => n.everywhere P && everywhereAll P ns

end

/-- What holds everywhere in some trees holds everywhere in each. -/
theorem everywhere_of_mem {P : Node → Bool} {nodes : List Node} (h : everywhereAll P nodes = true)
    {n : Node} (hn : n ∈ nodes) : n.everywhere P = true := by
  induction nodes with
  | nil => cases hn
  | cons first rest ih =>
    rw [everywhereAll, Bool.and_eq_true] at h
    rcases List.mem_cons.mp hn with rfl | hn
    · exact h.1
    · exact ih h.2 hn

/-- What holds everywhere in a tree holds everywhere under its children. -/
theorem everywhere_child {P : Node → Bool} {parent child : Node} {i : Nat}
    (h : parent.everywhere P = true) (hchild : parent.child? i = some child) :
    child.everywhere P = true := by
  unfold everywhere at h
  have hbelow := (Bool.and_eq_true _ _ ▸ h).2
  match parent, i, hchild with
  | .alternate _ l r, 0, rfl | .quantified _ l r, 0, rfl | .range _ l r, 0, rfl =>
    exact (Bool.and_eq_true _ _ ▸ hbelow).1
  | .alternate _ l r, 1, rfl | .quantified _ l r, 1, rfl | .range _ l r, 1, rfl =>
    exact (Bool.and_eq_true _ _ ▸ hbelow).2
  | .sequence .., _, hchild | .charset .., _, hchild =>
    exact everywhere_of_mem hbelow (List.mem_of_getElem? hchild)
  | .group .., 0, rfl => exact hbelow

/-- What holds everywhere in a tree holds of the node at every place. -/
theorem everywhere_at {P : Node → Bool} {root n : Node} {path : Path}
    (h : root.everywhere P = true) (hn : root.at? path = some n) : P n = true := by
  have hall : n.everywhere P = true := by
    induction path generalizing n with
    | nil =>
      cases hn
      exact h
    | cons i path ih =>
      obtain ⟨parent, hparent, hchild⟩ := Option.bind_eq_some_iff.mp hn
      exact everywhere_child (ih hparent) hchild
  unfold everywhere at hall
  exact (Bool.and_eq_true _ _ ▸ hall).1

mutual

/-- What holds of the node at every place under a tree holds everywhere in it. -/
theorem everywhere_of_at {P : Node → Bool} {root : Node}
    (h : ∀ path n, root.at? path = some n → P n = true) (n : Node) (path : Path)
    (hn : root.at? path = some n) : n.everywhere P = true := by
  have hchild (i : Nat) : root.at? (i :: path) = n.child? i := at_child hn i
  unfold everywhere
  rw [h path n hn, Bool.true_and]
  match n with
  | .alternate _ l r | .quantified _ l r | .range _ l r =>
    rw [Bool.and_eq_true]
    exact ⟨everywhere_of_at h l (0 :: path) (hchild 0),
      everywhere_of_at h r (1 :: path) (hchild 1)⟩
  | .sequence _ body | .charset _ body _ =>
    exact everywhereAll_of_at h body path 0 (.of_at hn fun _ => rfl)
  | .group _ _ body => exact everywhere_of_at h body (0 :: path) (hchild 0)
  | .quantifier .. | .literal .. | .numeric .. | .backReference .. | .control .. | .token ..
  | .unknown .. => rfl

/-- What holds of the node at every place under some trees in a row holds everywhere in them. -/
theorem everywhereAll_of_at {P : Node → Bool} {root : Node}
    (h : ∀ path n, root.at? path = some n → P n = true) (nodes : List Node) (path : Path)
    (place : Nat) (hrow : Row root nodes path place) : everywhereAll P nodes = true := by
  match nodes with
  | [] => rfl
  | n :: ns =>
    rw [everywhereAll, Bool.and_eq_true]
    exact ⟨everywhere_of_at h n (place :: path) hrow.head,
      everywhereAll_of_at h ns path (place + 1) hrow.tail⟩

end

mutual

/-- The places of the capturing groups in a tree that itself has a given place. -/
def groupPlaces : Node → Path → List Path
  | alternate _ l r, path => l.groupPlaces (0 :: path) ++ r.groupPlaces (1 :: path)
  | sequence _ body, path => groupPlacesAll body path 0
  | charset _ body _, path => groupPlacesAll body path 0
  | group _ .capturing body, path => path :: body.groupPlaces (0 :: path)
  | group _ _ body, path => body.groupPlaces (0 :: path)
  | quantified _ body q, path => body.groupPlaces (0 :: path) ++ q.groupPlaces (1 :: path)
  | range _ first last, path => first.groupPlaces (0 :: path) ++ last.groupPlaces (1 :: path)
  | _, _ => []

/-- The places of the capturing groups in some trees in a row, the first of which has a given
place. -/
def groupPlacesAll : List Node → Path → Nat → List Path
  | [], _, _ => []
  | n :: ns, path, place => n.groupPlaces (place :: path) ++ groupPlacesAll ns path (place + 1)

end

mutual

/-- Where a tree is found under another place, so are its groups. -/
theorem groupPlaces_append (n : Node) (path above : Path) :
    n.groupPlaces (path ++ above) = (n.groupPlaces path).map (· ++ above) := by
  match n with
  | .alternate _ l r | .quantified _ l r | .range _ l r =>
    rw [groupPlaces, groupPlaces, List.map_append, ← groupPlaces_append l (0 :: path) above,
      ← groupPlaces_append r (1 :: path) above, List.cons_append, List.cons_append]
  | .sequence _ body | .charset _ body _ => exact groupPlacesAll_append body path 0 above
  | .group _ .capturing body => exact congrArg _ (groupPlaces_append body (0 :: path) above)
  | .group _ .plain body | .group _ .ahead body | .group _ .notAhead body =>
    exact groupPlaces_append body (0 :: path) above
  | .quantifier .. | .literal .. | .numeric .. | .backReference .. | .control .. | .token ..
  | .unknown .. => rfl

/-- Where some trees in a row are found under another place, so are their groups. -/
theorem groupPlacesAll_append (nodes : List Node) (path : Path) (place : Nat) (above : Path) :
    groupPlacesAll nodes (path ++ above) place =
      (groupPlacesAll nodes path place).map (· ++ above) := by
  match nodes with
  | [] => rfl
  | n :: ns =>
    rw [groupPlacesAll, groupPlacesAll, List.map_append,
      ← groupPlaces_append n (place :: path) above,
      ← groupPlacesAll_append ns path (place + 1) above, List.cons_append]

end

/-- Whether there are groups in a tree does not depend on its place. -/
theorem groupPlaces_eq_nil_iff (n : Node) (path : Path) :
    n.groupPlaces path = [] ↔ n.groupPlaces [] = [] := by
  have hmap := n.groupPlaces_append [] path
  rw [List.nil_append] at hmap
  rw [hmap, List.map_eq_nil_iff]

/-- The groups of one of some trees in a row are groups of the row. -/
theorem groupPlaces_getElem_subset {nodes : List Node} {i : Nat} {n : Node} (h : nodes[i]? = some n)
    (path : Path) (place : Nat) :
    n.groupPlaces ((place + i) :: path) ⊆ groupPlacesAll nodes path place := by
  induction nodes generalizing i place with
  | nil => cases h
  | cons first rest ih =>
    rw [groupPlacesAll]
    cases i with
    | zero =>
      cases h
      exact List.subset_append_left _ _
    | succ i =>
      have hrest := ih h (place + 1)
      rw [Nat.add_assoc, Nat.add_comm 1 i] at hrest
      exact List.subset_append_of_subset_right _ hrest

/-- The groups of a child are groups of its parent. -/
theorem groupPlaces_child_subset {parent child : Node} {i : Nat}
    (h : parent.child? i = some child) (path : Path) :
    child.groupPlaces (i :: path) ⊆ parent.groupPlaces path := by
  have hrow {body : List Node} (hbody : body[i]? = some child) :
      child.groupPlaces (i :: path) ⊆ groupPlacesAll body path 0 := by
    have hsub := groupPlaces_getElem_subset hbody path 0
    rwa [Nat.zero_add] at hsub
  match parent, i, h with
  | .alternate _ l r, 0, rfl | .quantified _ l r, 0, rfl | .range _ l r, 0, rfl =>
    rw [groupPlaces]
    exact List.subset_append_left _ _
  | .alternate _ l r, 1, rfl | .quantified _ l r, 1, rfl | .range _ l r, 1, rfl =>
    rw [groupPlaces]
    exact List.subset_append_right _ _
  | .sequence .., _, h | .charset .., _, h => exact hrow h
  | .group _ .capturing _, 0, rfl => exact List.subset_cons_self _ _
  | .group _ .plain _, 0, rfl | .group _ .ahead _, 0, rfl | .group _ .notAhead _, 0, rfl =>
    exact List.Subset.refl _

/-- The groups of a tree are groups of every tree that it is a part of. -/
theorem groupPlaces_at_subset {root n : Node} {path : Path} (h : root.at? path = some n) :
    n.groupPlaces path ⊆ root.groupPlaces [] := by
  induction path generalizing n with
  | nil =>
    cases h
    exact List.Subset.refl _
  | cons i path ih =>
    obtain ⟨parent, hparent, hchild⟩ := Option.bind_eq_some_iff.mp h
    exact List.Subset.trans (groupPlaces_child_subset hchild path) (ih hparent)

mutual

/-- The groups of a tree lie under its place. -/
theorem suffix_of_mem_groupPlaces (n : Node) {path group : Path} (h : group ∈ n.groupPlaces path) :
    path <:+ group := by
  -- What lies under a child lies under its parent.
  have hup {i : Nat} (hchild : (i :: path) <:+ group) : path <:+ group :=
    (List.suffix_cons i path).trans hchild
  unfold groupPlaces at h
  split at h
  · rcases List.mem_append.mp h with h | h
    · exact hup (suffix_of_mem_groupPlaces _ h)
    · exact hup (suffix_of_mem_groupPlaces _ h)
  · obtain ⟨i, -, hi⟩ := exists_suffix_of_mem_groupPlacesAll _ h
    exact hup hi
  · obtain ⟨i, -, hi⟩ := exists_suffix_of_mem_groupPlacesAll _ h
    exact hup hi
  · rcases List.mem_cons.mp h with rfl | h
    · exact List.suffix_refl _
    · exact hup (suffix_of_mem_groupPlaces _ h)
  · exact hup (suffix_of_mem_groupPlaces _ h)
  · rcases List.mem_append.mp h with h | h
    · exact hup (suffix_of_mem_groupPlaces _ h)
    · exact hup (suffix_of_mem_groupPlaces _ h)
  · rcases List.mem_append.mp h with h | h
    · exact hup (suffix_of_mem_groupPlaces _ h)
    · exact hup (suffix_of_mem_groupPlaces _ h)
  · cases h

/-- The groups of some trees in a row lie under the places of the trees. -/
theorem exists_suffix_of_mem_groupPlacesAll (nodes : List Node) {path group : Path} {place : Nat}
    (h : group ∈ groupPlacesAll nodes path place) :
    ∃ i, place ≤ i ∧ (i :: path) <:+ group := by
  match nodes with
  | [] => cases h
  | n :: ns =>
    rcases List.mem_append.mp h with h | h
    · exact ⟨place, Nat.le_refl _, suffix_of_mem_groupPlaces n h⟩
    · obtain ⟨i, hle, hi⟩ := exists_suffix_of_mem_groupPlacesAll ns h
      exact ⟨i, Nat.le_of_succ_le hle, hi⟩

end

mutual

/-- The groups of a tree are listed in the order of their opening brackets: a group is followed by
those inside it and those after its end. -/
theorem pairwise_groupPlaces (n : Node) (path : Path) :
    (n.groupPlaces path).Pairwise
      fun group later => group <:+ later ∨ ClosesBefore group later := by
  match n with
  | .alternate _ l r | .quantified _ l r | .range _ l r =>
    rw [groupPlaces]
    refine List.pairwise_append.mpr ⟨pairwise_groupPlaces l (0 :: path),
      pairwise_groupPlaces r (1 :: path), fun group hgroup later hlater => .inr ?_⟩
    exact ⟨path, 0, 1, Nat.zero_lt_one, suffix_of_mem_groupPlaces l hgroup,
      suffix_of_mem_groupPlaces r hlater⟩
  | .sequence _ body | .charset _ body _ => exact pairwise_groupPlacesAll body path 0
  | .group _ .capturing body =>
    refine List.pairwise_cons.mpr ⟨fun later hlater => .inl ?_, pairwise_groupPlaces body _⟩
    exact (List.suffix_cons 0 path).trans (suffix_of_mem_groupPlaces body hlater)
  | .group _ .plain body | .group _ .ahead body | .group _ .notAhead body =>
    exact pairwise_groupPlaces body (0 :: path)
  | .quantifier .. | .literal .. | .numeric .. | .backReference .. | .control .. | .token ..
  | .unknown .. => exact List.Pairwise.nil

/-- The groups of some trees in a row are listed in the order of their opening brackets. -/
theorem pairwise_groupPlacesAll (nodes : List Node) (path : Path) (place : Nat) :
    (groupPlacesAll nodes path place).Pairwise
      fun group later => group <:+ later ∨ ClosesBefore group later := by
  match nodes with
  | [] => exact List.Pairwise.nil
  | n :: ns =>
    rw [groupPlacesAll]
    refine List.pairwise_append.mpr ⟨pairwise_groupPlaces n (place :: path),
      pairwise_groupPlacesAll ns path (place + 1), fun group hgroup later hlater => .inr ?_⟩
    obtain ⟨i, hlt, hi⟩ := exists_suffix_of_mem_groupPlacesAll ns hlater
    exact ⟨path, place, i, hlt, suffix_of_mem_groupPlaces n hgroup, hi⟩

end

mutual

/-- No group of a tree is listed twice. -/
theorem nodup_groupPlaces (n : Node) (path : Path) : (n.groupPlaces path).Nodup := by
  match n with
  | .alternate _ l r | .quantified _ l r | .range _ l r =>
    rw [groupPlaces]
    refine List.nodup_append.mpr ⟨nodup_groupPlaces l (0 :: path), nodup_groupPlaces r (1 :: path),
      fun group hgroup later hlater heq => ?_⟩
    subst heq
    exact absurd (child_unique (suffix_of_mem_groupPlaces l hgroup)
      (suffix_of_mem_groupPlaces r hlater)) Nat.zero_ne_one
  | .sequence _ body | .charset _ body _ => exact nodup_groupPlacesAll body path 0
  | .group _ .capturing body =>
    refine List.nodup_cons.mpr ⟨fun hin => ?_, nodup_groupPlaces body (0 :: path)⟩
    -- What is inside the group lies under its body.
    have hle := (suffix_of_mem_groupPlaces body hin).length_le
    rw [List.length_cons] at hle
    omega
  | .group _ .plain body | .group _ .ahead body | .group _ .notAhead body =>
    exact nodup_groupPlaces body (0 :: path)
  | .quantifier .. | .literal .. | .numeric .. | .backReference .. | .control .. | .token ..
  | .unknown .. => exact List.nodup_nil

/-- No group of some trees in a row is listed twice. -/
theorem nodup_groupPlacesAll (nodes : List Node) (path : Path) (place : Nat) :
    (groupPlacesAll nodes path place).Nodup := by
  match nodes with
  | [] => exact List.nodup_nil
  | n :: ns =>
    rw [groupPlacesAll]
    refine List.nodup_append.mpr ⟨nodup_groupPlaces n (place :: path),
      nodup_groupPlacesAll ns path (place + 1), fun group hgroup later hlater heq => ?_⟩
    subst heq
    obtain ⟨i, hlt, hi⟩ := exists_suffix_of_mem_groupPlacesAll ns hlater
    exact absurd (child_unique (suffix_of_mem_groupPlaces n hgroup) hi) (Nat.ne_of_lt hlt)

end

/-- A capturing group is listed with its place. -/
theorem mem_groupPlaces {root : Node} {path : Path} {mark : Mark} {body : Node}
    (h : root.at? path = some (.group mark .capturing body)) : path ∈ root.groupPlaces [] := by
  refine groupPlaces_at_subset h ?_
  rw [groupPlaces]
  exact List.mem_cons_self

end Node

end PatternSampler
