import Mathlib.Data.Set.Finite.Basic
import Mathlib.Logic.Function.Basic
import Mathlib.Order.WellFounded
import Mathlib.Data.Fintype.Order

/-!
# Forests in parent, child and sibling pointers

Every node points to its parent, to the first of its children and to its next
sibling.  `Listed` says that the child lists of the nodes are finite and that
each of them holds exactly the children of its node; a `Forest` has no cycle of
parents either.

* `Listed.attach`, `Listed.detach`: a root is put in front of a child list, and a
  child is taken out of its list through the slot that points to it.
* `Forest.attach`, `Forest.detach`: neither makes a cycle, as long as a root is
  not attached below itself.
* `Forest.children_first`: what holds of a node when it holds of its children
  holds of every node.  With it `Forest.spans` shows that the recursive walk over
  first children and siblings is finite.
-/

namespace SiblingForest

variable {α : Type}

structure Links (α : Type) where
  parent : α → Option α
  child1 : α → Option α
  sibling : α → Option α

/-! ## Lists of siblings -/

/-- Following `next` from the start passes the list and ends. -/
def Walks (next : α → Option α) : Option α → List α → Prop
  | start, [] => start = none
  | start, x :: xs => start = some x ∧ Walks next (next x) xs

section Walks

variable {next next' : α → Option α} {start : Option α} {xs ys : List α}

theorem Walks.unique (first : Walks next start xs) (second : Walks next start ys) : xs = ys := by
  induction xs generalizing start ys with
  | nil =>
    cases first
    cases ys with
    | nil => rfl
    | cons y ys => cases second.1
  | cons x xs ih =>
    obtain ⟨rfl, rest⟩ := first
    cases ys with
    | nil => cases second
    | cons y ys =>
      obtain ⟨same, rest'⟩ := second
      cases same
      rw [ih rest rest']

theorem Walks.congr (walks : Walks next start xs) (same : ∀ x ∈ xs, next' x = next x) :
    Walks next' start xs := by
  induction xs generalizing start with
  | nil => exact walks
  | cons x xs ih =>
    refine ⟨walks.1, ?_⟩
    rw [same x List.mem_cons_self]
    exact ih walks.2 fun y mem => same y (List.mem_cons_of_mem x mem)

theorem Walks.of_append {zs : List α} {y : α} (walks : Walks next start (zs ++ y :: ys)) :
    Walks next (next y) ys := by
  induction zs generalizing start with
  | nil => exact walks.2
  | cons z zs ih => exact ih walks.2

/-- A finite walk does not come back. -/
theorem Walks.nodup (walks : Walks next start xs) : xs.Nodup := by
  induction xs generalizing start with
  | nil => exact List.nodup_nil
  | cons x xs ih =>
    refine List.nodup_cons.mpr ⟨fun again => ?_, ih walks.2⟩
    obtain ⟨before, after, rfl⟩ := List.append_of_mem again
    have length := congrArg List.length (walks.2.unique walks.2.of_append)
    simp only [List.length_append, List.length_cons] at length
    omega

end Walks

/-- A place that points to a node of a child list. -/
inductive Slot (α : Type) where
  | child1 (p : α)
  | sibling (c : α)

def Links.get (l : Links α) : Slot α → Option α
  | .child1 p => l.child1 p
  | .sibling c => l.sibling c

/-- The slot behind the nodes of a list. -/
def Slot.after (s : Slot α) : List α → Slot α
  | [] => s
  | x :: xs => Slot.after (.sibling x) xs

section Links

variable [DecidableEq α]

def Links.put (l : Links α) (s : Slot α) (v : Option α) : Links α :=
  match s with
  | .child1 p => { l with child1 := Function.update l.child1 p v }
  | .sibling c => { l with sibling := Function.update l.sibling c v }

/-- The links with the node as a root. -/
def Links.without (l : Links α) (c : α) : Links α :=
  { l with parent := Function.update l.parent c none }

/-- The node leaves the list through the slot that points to it, and is a root. -/
def Links.detach (l : Links α) (c : α) (s : Slot α) : Links α :=
  { l.put s (l.sibling c) with parent := Function.update l.parent c none }

/-- The node becomes the first child of `q`. -/
def Links.attach (l : Links α) (c q : α) : Links α where
  parent := Function.update l.parent c (some q)
  child1 := Function.update l.child1 q (some c)
  sibling := Function.update l.sibling c (l.child1 q)

end Links

/-! ## Forests -/

/-- Every node of the set heads the list of its children. -/
structure Listed (l : Links α) (nodes : Set α) : Prop where
  list : ∀ p ∈ nodes, ∃ cs, Walks l.sibling (l.child1 p) cs ∧
    ∀ c, c ∈ cs ↔ c ∈ nodes ∧ l.parent c = some p
  closed : ∀ c ∈ nodes, ∀ p, l.parent c = some p → p ∈ nodes

/-- Following the parents ends at a root. -/
inductive Rooted (l : Links α) : α → Prop
  | root {c : α} (top : l.parent c = none) : Rooted l c
  | child {c p : α} (up : l.parent c = some p) (above : Rooted l p) : Rooted l c

structure Forest (l : Links α) (nodes : Set α) : Prop extends Listed l nodes where
  rooted : ∀ c ∈ nodes, Rooted l c

/-- The node is `top` or lies below it. -/
def Below (l : Links α) : α → α → Prop :=
  Relation.ReflTransGen fun c p => l.parent c = some p

/-- A node that is attached is a root before. -/
theorem without_attach [DecidableEq α] (l : Links α) (c q : α) :
    (l.without c).attach c q = l.attach c q := by
  simp only [Links.attach, Links.without, Function.update_idem]

theorem without_of_root [DecidableEq α] {l : Links α} {c : α} (top : l.parent c = none) :
    l.without c = l := by
  rw [Links.without, Function.update_eq_self_iff.mpr top.symm]

/-- The slot behind a list is a new one or belongs to the list. -/
theorem after_cases (s : Slot α) (xs : List α) :
    xs = [] ∧ s.after xs = s ∨ ∃ x ∈ xs, s.after xs = .sibling x := by
  induction xs generalizing s with
  | nil => exact Or.inl ⟨rfl, rfl⟩
  | cons x xs ih =>
    refine Or.inr ?_
    rcases ih (.sibling x) with ⟨rfl, last⟩ | ⟨y, mem, last⟩
    · exact ⟨x, List.mem_cons_self, last⟩
    · exact ⟨y, List.mem_cons_of_mem x mem, last⟩

/-- A child is found behind some of its siblings. -/
theorem Listed.split {l : Links α} {nodes : Set α} {c p : α} (listed : Listed l nodes)
    (member : c ∈ nodes) (up : l.parent c = some p) :
    ∃ pre post, Walks l.sibling (l.child1 p) (pre ++ c :: post) ∧
      ∀ x, x ∈ pre ++ c :: post ↔ x ∈ nodes ∧ l.parent x = some p := by
  obtain ⟨cs, walks, mem⟩ := listed.list p (listed.closed c member p up)
  obtain ⟨pre, post, rfl⟩ := List.append_of_mem ((mem c).mpr ⟨member, up⟩)
  exact ⟨pre, post, walks, mem⟩

/-- Only the parents of the nodes count. -/
theorem Listed.congr {l l' : Links α} {nodes : Set α} (listed : Listed l nodes)
    (parent : ∀ c ∈ nodes, l'.parent c = l.parent c) (child1 : l'.child1 = l.child1)
    (sibling : l'.sibling = l.sibling) : Listed l' nodes where
  list p inside := by
    obtain ⟨cs, walks, mem⟩ := listed.list p inside
    refine ⟨cs, ?_, fun x => (mem x).trans ?_⟩
    · rw [child1, sibling]
      exact walks
    · exact and_congr_right fun member => by rw [parent x member]
  closed x member p up := listed.closed x member p (parent x member ▸ up)

section Listed

variable [DecidableEq α] {l : Links α} {nodes : Set α} {c p q x : α} {s : Slot α}
  {cs pre post : List α} {v : Option α}

theorem get_put_self : (l.put s v).get s = v := by
  cases s with
  | child1 p => exact Function.update_self ..
  | sibling c => exact Function.update_self ..

theorem get_put_of_ne {t : Slot α} (apart : t ≠ s) : (l.put s v).get t = l.get t := by
  cases s with
  | child1 p =>
    cases t with
    | child1 p' => exact Function.update_of_ne (fun same : p' = p => apart (same ▸ rfl)) ..
    | sibling c => rfl
  | sibling c =>
    cases t with
    | child1 p => rfl
    | sibling c' => exact Function.update_of_ne (fun same : c' = c => apart (same ▸ rfl)) ..

@[simp] theorem put_parent : (l.put s v).parent = l.parent := by
  cases s <;> rfl

theorem without_put : (l.put s (l.sibling c)).without c = l.detach c s := by
  rw [Links.without, Links.detach, put_parent]

/-- A walk from a slot outside its list passes the node it is made to skip. -/
theorem Walks.skip (walks : Walks l.sibling (l.get s) (pre ++ c :: post))
    (fresh : ∀ x ∈ pre ++ c :: post, s ≠ .sibling x) :
    Walks (l.put (s.after pre) (l.sibling c)).sibling ((l.put (s.after pre) (l.sibling c)).get s)
      (pre ++ post) := by
  induction pre generalizing s with
  | nil =>
    rw [Slot.after, get_put_self, List.nil_append]
    refine walks.2.congr fun x mem => ?_
    exact get_put_of_ne (l := l) (t := .sibling x)
      (fresh x (List.mem_append_right [] (List.mem_cons_of_mem c mem))).symm
  | cons y pre ih =>
    have nodup := List.nodup_cons.mp walks.nodup
    have rest := ih (s := .sibling y) walks.2 fun x mem same => by
      cases same
      exact nodup.1 mem
    refine ⟨?_, rest⟩
    rw [get_put_of_ne, walks.1]
    intro same
    rcases after_cases (.sibling y) pre with ⟨-, last⟩ | ⟨x, mem, last⟩
    · exact fresh y List.mem_cons_self (same.trans last)
    · exact fresh x (List.mem_cons_of_mem y (List.mem_append_left _ mem)) (same.trans last)

/-- A list whose slots are left alone stays as it is. -/
theorem Walks.put_of_ne (walks : Walks l.sibling (l.child1 p) cs) (head : s ≠ .child1 p)
    (inside : ∀ x ∈ cs, s ≠ .sibling x) :
    Walks (l.put s v).sibling ((l.put s v).child1 p) cs := by
  have same : (l.put s v).child1 p = l.child1 p :=
    get_put_of_ne (l := l) (t := .child1 p) head.symm
  rw [same]
  exact walks.congr fun x mem => get_put_of_ne (l := l) (t := .sibling x) (inside x mem).symm

theorem Listed.detach (listed : Listed l nodes) (up : l.parent c = some p)
    (walks : Walks l.sibling (l.child1 p) (pre ++ c :: post))
    (mem : ∀ x, x ∈ pre ++ c :: post ↔ x ∈ nodes ∧ l.parent x = some p) :
    Listed (l.detach c ((Slot.child1 p).after pre)) nodes := by
  have parent : ∀ x q, (l.detach c ((Slot.child1 p).after pre)).parent x = some q ↔
      x ≠ c ∧ l.parent x = some q := by
    intro x q
    rcases eq_or_ne x c with rfl | apart
    · simp only [Links.detach, Function.update_self, reduceCtorEq, ne_eq, not_true, false_and]
    · simp only [Links.detach, Function.update_of_ne apart, ne_eq, apart, not_false_eq_true,
        true_and]
  constructor
  · intro q inside
    rcases eq_or_ne q p with rfl | apart
    · refine ⟨pre ++ post, walks.skip (s := .child1 q) fun x _ => nofun, fun x => ?_⟩
      have nodup := List.nodup_middle.mp walks.nodup
      rw [parent, ← and_left_comm, ← mem x]
      simp only [List.mem_append, List.mem_cons]
      constructor
      · intro listed
        refine ⟨fun same => (List.nodup_cons.mp nodup).1 ?_, listed.imp_right Or.inr⟩
        rw [← same]
        exact List.mem_append.mpr listed
      · rintro ⟨other, before | rfl | after⟩
        · exact Or.inl before
        · exact (other rfl).elim
        · exact Or.inr after
    · obtain ⟨cs, walks', mem'⟩ := listed.list q inside
      have slot : ∀ {t : Slot α}, t = .child1 q ∨ (∃ x ∈ cs, t = .sibling x) →
          (Slot.child1 p).after pre ≠ t := by
        rintro t place same
        rcases after_cases (.child1 p) pre with ⟨-, last⟩ | ⟨y, before, last⟩
        · rcases place with rfl | ⟨x, -, rfl⟩
          · cases last.symm.trans same
            exact apart rfl
          · cases last.symm.trans same
        · rcases place with rfl | ⟨x, other, rfl⟩
          · cases last.symm.trans same
          · cases last.symm.trans same
            have both := ((mem y).mp (List.mem_append_left _ before)).2.symm.trans
              ((mem' y).mp other).2
            exact apart (Option.some.inj both).symm
      refine ⟨cs, walks'.put_of_ne (slot (Or.inl rfl)) ?_, fun x => ?_⟩
      · exact fun x other => slot (Or.inr ⟨x, other, rfl⟩)
      · rw [parent, mem']
        refine ⟨fun ⟨inside', up'⟩ => ⟨inside', fun same => ?_, up'⟩,
          fun ⟨inside', _, up'⟩ => ⟨inside', up'⟩⟩
        rw [same, up] at up'
        exact apart (Option.some.inj up').symm
  · intro x inside q up'
    exact listed.closed x inside q ((parent x q).mp up').2

theorem Listed.attach (listed : Listed l nodes) (top : l.parent c = none) (member : c ∈ nodes)
    (below : q ∈ nodes) : Listed (l.attach c q) nodes := by
  have parent : ∀ x p, (l.attach c q).parent x = some p ↔
      x = c ∧ p = q ∨ l.parent x = some p := by
    intro x p
    rcases eq_or_ne x c with rfl | apart
    · simp only [Links.attach, Function.update_self, Option.some.injEq, true_and, top, reduceCtorEq,
        or_false, eq_comm]
    · simp only [Links.attach, Function.update_of_ne apart, apart, false_and, false_or]
  have unlisted : ∀ {p : α} {cs : List α},
      (∀ x, x ∈ cs ↔ x ∈ nodes ∧ l.parent x = some p) → c ∉ cs := by
    intro p cs mem inside
    cases top.symm.trans ((mem c).mp inside).2
  constructor
  · intro p inside
    obtain ⟨cs, walks, mem⟩ := listed.list p inside
    have kept : Walks (l.attach c q).sibling (l.child1 p) cs := by
      refine walks.congr fun x other => Function.update_of_ne ?_ ..
      exact fun same => unlisted mem (same ▸ other)
    rcases eq_or_ne p q with rfl | apart
    · refine ⟨c :: cs, ⟨Function.update_self .., ?_⟩, fun x => ?_⟩
      · rw [show (l.attach c p).sibling c = l.child1 p from Function.update_self ..]
        exact kept
      · rw [List.mem_cons, parent, mem]
        simp only [and_true, and_or_left]
        exact or_congr_left ⟨fun same => ⟨same ▸ member, same⟩, And.right⟩
    · refine ⟨cs, ?_, fun x => ?_⟩
      · rw [show (l.attach c q).child1 p = l.child1 p from Function.update_of_ne apart ..]
        exact kept
      · rw [parent, mem]
        simp only [apart, and_false, false_or]
  · intro x inside p up
    rcases (parent x p).mp up with ⟨-, rfl⟩ | old
    · exact below
    · exact listed.closed x inside p old

/-- A new node is a root without children. -/
theorem Listed.newRoot (listed : Listed l nodes) (fresh : c ∉ nodes) :
    Listed ⟨Function.update l.parent c none, Function.update l.child1 c none,
      Function.update l.sibling c v⟩ (insert c nodes) := by
  have apart : ∀ x ∈ nodes, x ≠ c := fun x inside same => fresh (same ▸ inside)
  have parent : ∀ x p, x ∈ insert c nodes ∧ Function.update l.parent c none x = some p ↔
      x ∈ nodes ∧ l.parent x = some p := by
    intro x p
    rcases eq_or_ne x c with rfl | other
    · simp only [Function.update_self, reduceCtorEq, and_false, fresh, false_and]
    · simp only [Function.update_of_ne other, Set.mem_insert_iff, other, false_or]
  constructor
  · intro p inside
    rcases inside with rfl | inside
    · refine ⟨[], Function.update_self .., fun x => ?_⟩
      rw [parent]
      exact ⟨nofun, fun ⟨member, up⟩ => (fresh (listed.closed x member p up)).elim⟩
    · obtain ⟨cs, walks, mem⟩ := listed.list p inside
      refine ⟨cs, ?_, fun x => (mem x).trans (parent x p).symm⟩
      dsimp only
      rw [Function.update_of_ne (apart p inside)]
      exact walks.congr fun x child => Function.update_of_ne (apart x ((mem x).mp child).1) ..
  · intro x inside p up
    obtain ⟨member, up⟩ := (parent x p).mp ⟨inside, up⟩
    exact Or.inr (listed.closed x member p up)

/-- The sibling of a root is in no list. -/
theorem Listed.set_sibling (listed : Listed l nodes) (top : l.parent c = none) :
    Listed { l with sibling := Function.update l.sibling c v } nodes where
  list p inside := by
    obtain ⟨cs, walks, mem⟩ := listed.list p inside
    refine ⟨cs, walks.congr fun x other => Function.update_of_ne (fun same => ?_) .., mem⟩
    have child := ((mem x).mp other).2
    rw [same, top] at child
    cases child
  closed := listed.closed

end Listed

/-! ## No cycles -/

section Forest

variable {l : Links α} {nodes : Set α} {c p q x : α}

theorem Below.up (up : l.parent c = some p) (below : Below l p x) : Below l c x :=
  Relation.ReflTransGen.head up below

/-- A node below `c` is `c` or its parent is below `c`. -/
theorem Below.cases_parent (below : Below l x c) :
    x = c ∨ ∃ p, l.parent x = some p ∧ Below l p c := by
  rcases Relation.ReflTransGen.cases_head below with same | ⟨p, up, rest⟩
  · exact Or.inl same
  · exact Or.inr ⟨p, up, rest⟩

theorem Below.eq_of_root (below : Below l x c) (top : l.parent x = none) : x = c := by
  rcases below.cases_parent with same | ⟨p, up, -⟩
  · exact same
  · cases top.symm.trans up

theorem Listed.above (listed : Listed l nodes) (member : x ∈ nodes) (below : Below l x c) :
    c ∈ nodes := by
  induction below with
  | refl => exact member
  | tail _ up ih => exact listed.closed _ ih _ up

/-- Where a node hangs says nothing about what is below it. -/
theorem Below.congr {l' : Links α} (below : Below l x c)
    (same : ∀ y, y ≠ c → l'.parent y = l.parent y) : Below l' x c := by
  induction below using Relation.ReflTransGen.head_induction_on with
  | refl => exact .refl
  | @head y p up rest ih =>
    rcases eq_or_ne y c with rfl | apart
    · exact .refl
    · exact ih.up ((same y apart).trans up)

/-- Nothing lies properly below itself. -/
theorem Rooted.irrefl (rooted : Rooted l x) :
    ¬ Relation.TransGen (fun c p => l.parent c = some p) x x := by
  induction rooted with
  | root top =>
    intro cycle
    obtain ⟨y, up, -⟩ := Relation.TransGen.head'_iff.mp cycle
    cases top.symm.trans up
  | @child c p up _ ih =>
    intro cycle
    obtain ⟨y, up', rest⟩ := Relation.TransGen.head'_iff.mp cycle
    cases up.symm.trans up'
    exact ih (Relation.TransGen.tail' rest up)

/-- No child of a node lies above it. -/
theorem Rooted.not_below_child (rooted : Rooted l p) (up : l.parent c = some p) :
    ¬ Below l p c :=
  fun below => rooted.irrefl (Relation.TransGen.tail' below up)

/-- Nothing lies below two children of a node. -/
theorem Rooted.siblings_apart {c' : α} (rooted : Rooted l p) (up : l.parent c = some p)
    (up' : l.parent c' = some p) (apart : c ≠ c') (below : Below l x c) : ¬ Below l x c' := by
  have unique : Relator.RightUnique fun c p => l.parent c = some p := by
    intro y a b first second
    exact Option.some.inj (first.symm.trans second)
  have side : ∀ {a b : α}, l.parent a = some p → l.parent b = some p → a ≠ b →
      ¬ Below l a b := by
    intro a b upA upB differ lower
    rcases lower.cases_parent with same | ⟨q, upQ, rest⟩
    · exact differ same
    · cases upA.symm.trans upQ
      exact rooted.not_below_child upB rest
  intro below'
  rcases Relation.ReflTransGen.total_of_right_unique unique below below' with lower | lower
  · exact side up up' apart lower
  · exact side up' up apart.symm lower

/-- What holds of a node when it holds of its children holds of every node. -/
theorem Forest.children_first {motive : α → Prop} (forest : Forest l nodes)
    (finite : nodes.Finite)
    (step : ∀ p ∈ nodes, (∀ c ∈ nodes, l.parent c = some p → motive c) → motive p) :
    ∀ p ∈ nodes, motive p := by
  have := finite.to_subtype
  let r : nodes → nodes → Prop := Relation.TransGen fun c p => l.parent c = some p.1
  have irrefl : Std.Irrefl r := ⟨fun c cycle => (forest.rooted c c.2).irrefl
    (Relation.TransGen.lift (fun y : nodes => y.1) (fun _ _ up => up) _ _ cycle)⟩
  have wf : WellFounded r := Finite.wellFounded_of_trans_of_irrefl r
  have all : ∀ p : nodes, motive p := by
    intro p
    induction p using wf.induction with
    | _ p ih => exact step p p.2 fun c inside up => ih ⟨c, inside⟩ (Relation.TransGen.single up)
  exact fun p inside => all ⟨p, inside⟩

/-- The recursive walk over first children and siblings is finite. -/
inductive Spans (l : Links α) : Option α → Prop
  | nil : Spans l none
  | node {c : α} (down : Spans l (l.child1 c)) (along : Spans l (l.sibling c)) :
    Spans l (some c)

theorem Walks.spans {start : Option α} {cs : List α} (walks : Walks l.sibling start cs)
    (down : ∀ c ∈ cs, Spans l (l.child1 c)) : Spans l start := by
  induction cs generalizing start with
  | nil =>
    cases walks
    exact .nil
  | cons c cs ih =>
    obtain ⟨rfl, rest⟩ := walks
    exact .node (down c List.mem_cons_self)
      (ih rest fun x mem => down x (List.mem_cons_of_mem c mem))

theorem Forest.spans (forest : Forest l nodes) (finite : nodes.Finite) :
    ∀ p ∈ nodes, Spans l (l.child1 p) := by
  refine forest.children_first finite fun p inside ih => ?_
  obtain ⟨cs, walks, mem⟩ := forest.list p inside
  exact walks.spans fun c child => ih c ((mem c).mp child).1 ((mem c).mp child).2

/-- Only the parents say what is rooted. -/
theorem Rooted.congr {l' : Links α} (rooted : Rooted l x) (same : l'.parent = l.parent) :
    Rooted l' x := by
  induction rooted with
  | root top => exact .root (by rw [same, top])
  | child up _ ih => exact .child (by rw [same, up]) ih

variable [DecidableEq α] {s : Slot α} {v : Option α}

theorem Rooted.detach (rooted : Rooted l x) : Rooted (l.detach c s) x := by
  have own : (l.detach c s).parent c = none := Function.update_self ..
  have other : ∀ {y}, y ≠ c → (l.detach c s).parent y = l.parent y := by
    intro y apart
    simp only [Links.detach, Function.update_of_ne apart]
  induction rooted with
  | @root y top =>
    rcases eq_or_ne y c with rfl | apart
    · exact .root own
    · exact .root ((other apart).trans top)
  | @child y p up _ ih =>
    rcases eq_or_ne y c with rfl | apart
    · exact .root own
    · exact .child ((other apart).trans up) ih

/-- The new parent keeps its path to a root, and so does all that reaches it. -/
theorem Rooted.attach (rooted : Rooted l x) (above : Rooted l q) (outside : ¬ Below l q c) :
    Rooted (l.attach c q) x := by
  have own : (l.attach c q).parent c = some q := Function.update_self ..
  have other : ∀ {y}, y ≠ c → (l.attach c q).parent y = l.parent y :=
    fun apart => Function.update_of_ne apart ..
  have kept : ∀ {y}, Rooted l y → ¬ Below l y c → Rooted (l.attach c q) y := by
    intro y rooted
    induction rooted with
    | root top =>
      intro apart
      exact .root ((other fun same => apart (same ▸ .refl)).trans top)
    | child up _ ih =>
      intro apart
      exact .child ((other fun same => apart (same ▸ .refl)).trans up)
        (ih fun below => apart (below.up up))
  induction rooted with
  | @root y top =>
    rcases eq_or_ne y c with rfl | apart
    · exact .child own (kept above outside)
    · exact .root ((other apart).trans top)
  | @child y p up _ ih =>
    rcases eq_or_ne y c with rfl | apart
    · exact .child own (kept above outside)
    · exact .child ((other apart).trans up) ih

theorem Forest.detach {pre post : List α} (forest : Forest l nodes) (up : l.parent c = some p)
    (walks : Walks l.sibling (l.child1 p) (pre ++ c :: post))
    (mem : ∀ x, x ∈ pre ++ c :: post ↔ x ∈ nodes ∧ l.parent x = some p) :
    Forest (l.detach c ((Slot.child1 p).after pre)) nodes where
  toListed := forest.toListed.detach up walks mem
  rooted x inside := (forest.rooted x inside).detach

theorem Forest.attach (forest : Forest l nodes) (top : l.parent c = none) (member : c ∈ nodes)
    (below : q ∈ nodes) (outside : ¬ Below l q c) : Forest (l.attach c q) nodes where
  toListed := forest.toListed.attach top member below
  rooted x inside := (forest.rooted x inside).attach (forest.rooted q below) outside

theorem Forest.set_sibling (forest : Forest l nodes) (top : l.parent c = none) :
    Forest { l with sibling := Function.update l.sibling c v } nodes where
  toListed := forest.toListed.set_sibling top
  rooted x inside := (forest.rooted x inside).congr rfl

/-- Taking a node out does not put another one below it. -/
theorem not_below_detach (outside : ¬ Below l q c) : ¬ Below (l.detach c s) q c := by
  intro below
  refine outside (Relation.ReflTransGen.mono (fun y p up => ?_) _ _ below)
  rcases eq_or_ne y c with rfl | apart
  · rw [show (l.detach y s).parent y = none from Function.update_self ..] at up
    cases up
  · rwa [show (l.detach c s).parent y = l.parent y by
      simp only [Links.detach, Function.update_of_ne apart]] at up

end Forest

end SiblingForest
