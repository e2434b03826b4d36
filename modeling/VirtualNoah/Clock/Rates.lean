import VirtualNoah.Clock.Ticks

/-!
# The rates the walks leave

A clock is fed through the clocks above it, and the products of the divisors and
multipliers on the way give its rate.  `jz_clk_rate_update` sets the rate of a
clock and goes on below it as long as the clocks run.
-/

namespace VirtualNoah

open SiblingForest

variable {ν : Type}

/-- The way down from `top` to `x` through clocks in `go`, with the products of the
divisors and of the multipliers of the clocks below `top`. -/
inductive Path (h : ClkHeap ν) (go : ClkPtr → Prop) (x : ClkPtr) : ClkPtr → Nat → Nat → Prop
  | here : Path h go x x 1 1
  | down {top c : ClkPtr} {d k : Nat} (up : (h c).parent = some top) (through : go top)
    (rest : Path h go x c d k) :
    Path h go x top ((h c).divisor.toNat * d) ((h c).multiplier.toNat * k)

def ClkHeap.Runs (h : ClkHeap ν) (p : ClkPtr) : Prop := (h p).running = true

/-- No clock on the way is left out. -/
abbrev Any (_ : ClkPtr) : Prop := True

section Path

variable {h h' : ClkHeap ν} {go go' : ClkPtr → Prop} {x top top' p : ClkPtr} {d k d' k' : Nat}

theorem Path.lower (path : Path h go x top d k) : Below h.links x top := by
  induction path with
  | here => exact .refl
  | down up _ _ ih => exact Relation.ReflTransGen.tail ih up

/-- Only what lies above the clock counts. -/
theorem Path.congr (path : Path h go x top d k)
    (same : ∀ y, Below h.links x y → (h' y).parent = (h y).parent ∧
      (h' y).divisor = (h y).divisor ∧ (h' y).multiplier = (h y).multiplier)
    (through : ∀ y, Below h.links x y → go y → go' y) : Path h' go' x top d k := by
  induction path with
  | here => exact .here
  | down up open' rest ih =>
    obtain ⟨parent, divisor, multiplier⟩ := same _ rest.lower
    rw [← divisor, ← multiplier]
    exact .down (parent.trans up) (through _ (Relation.ReflTransGen.tail rest.lower up) open') ih

/-- The way to a clock is the way to its parent and one step. -/
theorem Path.step (path : Path h go p top d k) (up : (h x).parent = some p) (through : go p) :
    Path h go x top (d * (h x).divisor.toNat) (k * (h x).multiplier.toNat) := by
  induction path with
  | here =>
    have last : Path h go x _ _ _ := .down up through .here
    rwa [Nat.mul_comm, Nat.mul_comm (h x).multiplier.toNat] at last
  | down up' through' _ ih =>
    rw [Nat.mul_assoc, Nat.mul_assoc]
    exact .down up' through' ih

theorem Path.cases_step (path : Path h go x top d k) :
    x = top ∧ d = 1 ∧ k = 1 ∨ ∃ p d' k', (h x).parent = some p ∧ go p ∧ Path h go p top d' k' ∧
      d = d' * (h x).divisor.toNat ∧ k = k' * (h x).multiplier.toNat := by
  induction path with
  | here => exact Or.inl ⟨rfl, rfl, rfl⟩
  | @down top c d k up through _ ih =>
    rcases ih with ⟨rfl, rfl, rfl⟩ | ⟨p, d', k', up', through', path', rfl, rfl⟩
    · exact Or.inr ⟨top, 1, 1, up, through, .here, Nat.mul_comm .., Nat.mul_comm ..⟩
    · refine Or.inr ⟨p, _, _, up', through', .down up through path', ?_, ?_⟩
      · rw [Nat.mul_assoc]
      · rw [Nat.mul_assoc]

/-- A clock hangs below one root, in one way. -/
theorem Path.unique (rooted : Rooted h.links x) (first : Path h go x top d k)
    (second : Path h go x top' d' k') (root : (h top).parent = none)
    (root' : (h top').parent = none) : top = top' ∧ d = d' ∧ k = k' := by
  induction rooted generalizing d k d' k' with
  | @root x none' =>
    have one : x = top := first.lower.eq_of_root none'
    have other : x = top' := second.lower.eq_of_root none'
    rcases first.cases_step with ⟨-, rfl, rfl⟩ | ⟨p, -, -, up, -⟩
    · rcases second.cases_step with ⟨-, rfl, rfl⟩ | ⟨p, -, -, up, -⟩
      · exact ⟨one.symm.trans other, rfl, rfl⟩
      · cases up.symm.trans none'
    · cases up.symm.trans none'
  | @child x q up _ ih =>
    rcases first.cases_step with ⟨rfl, -, -⟩ | ⟨p, a, b, upP, -, pathP, rfl, rfl⟩
    · cases root.symm.trans up
    · rcases second.cases_step with ⟨rfl, -, -⟩ | ⟨p', a', b', upP', -, pathP', rfl, rfl⟩
      · cases root'.symm.trans up
      · cases upP.symm.trans up
        cases upP'.symm.trans up
        obtain ⟨same, rfl, rfl⟩ := ih pathP pathP'
        exact ⟨same, rfl, rfl⟩

/-- One way down after another. -/
theorem Path.append (first : Path h go p top d k) (second : Path h go x p d' k') :
    Path h go x top (d * d') (k * k') := by
  induction first with
  | here =>
    rw [Nat.one_mul, Nat.one_mul]
    exact second
  | down up through _ ih =>
    rw [Nat.mul_assoc, Nat.mul_assoc]
    exact .down up through ih

end Path

theorem muldiv64_one (a : BitVec 64) : muldiv64 a 1 1 = a := by
  apply BitVec.eq_of_toNat_eq
  rw [muldiv64_toNat a (by decide)]
  change a.toNat * 1 / 1 % 2 ^ 64 = a.toNat
  rw [Nat.mul_one, Nat.div_one, Nat.mod_eq_of_lt a.isLt]

/-- The rate is the one the root gives through the clocks above. -/
def ClkHeap.RateRight (h : ClkHeap ν) (x : ClkPtr) : Prop :=
  ∀ r d k, (h r).parent = none → Path h Any x r d k →
    BitVec.ofNat 32 d ≠ 0#32 ∧
    (h x).rate = muldiv64 (h r).rate (BitVec.ofNat 32 k) (BitVec.ofNat 32 d)

/-! ## The walk -/

/-- What a walk that goes the ways in `ways` does. -/
structure Rerated (nodes : Set ClkPtr) (ways : ClkPtr → Nat → Nat → Prop)
    (rate div mult : BitVec 64) (h h' : ClkHeap ν) : Prop where
  rest : ∀ x, h' x = { h x with rate := (h' x).rate }
  seen : ∀ x ∈ nodes, ∀ d k, ways x d k →
    (div * BitVec.ofNat 64 d).setWidth 32 ≠ 0#32 ∧
    (h' x).rate = muldiv64 rate ((mult * BitVec.ofNat 64 k).setWidth 32)
      ((div * BitVec.ofNat 64 d).setWidth 32)
  unseen : ∀ x, (x ∈ nodes → ∀ d k, ¬ ways x d k) → (h' x).rate = (h x).rate

section Walk

variable {nodes : Set ClkPtr} {h h' h'' : ClkHeap ν} {rate div mult : BitVec 64}
  {go : ClkPtr → Prop} {x top clk p : ClkPtr} {d k : Nat} {ways ways' : ClkPtr → Nat → Nat → Prop}

theorem Rerated.shape (rerated : Rerated nodes ways rate div mult h h') : SameShape h h' := by
  intro x
  rw [rerated.rest x]

theorem Rerated.path (rerated : Rerated nodes ways rate div mult h h') :
    Path h' h'.Runs x top d k ↔ Path h h.Runs x top d k := by
  have rest := rerated.rest
  constructor
  · intro path
    refine path.congr (fun y _ => ?_) fun y _ runs => ?_
    · rw [rest y]
      exact ⟨rfl, rfl, rfl⟩
    · unfold ClkHeap.Runs at runs
      rw [rest y] at runs
      exact runs
  · intro path
    refine path.congr (fun y _ => ?_) fun y _ runs => ?_
    · rw [rest y]
      exact ⟨rfl, rfl, rfl⟩
    · unfold ClkHeap.Runs
      rw [rest y]
      exact runs

/-- One walk after another one that has gone other ways. -/
theorem Rerated.append (first : Rerated nodes ways rate div mult h h')
    (second : Rerated nodes ways' rate div mult h' h'')
    (apart : ∀ x d k d' k', ways x d k → ¬ ways' x d' k') :
    Rerated nodes (fun x d k => ways x d k ∨ ways' x d k) rate div mult h h'' where
  rest x := by rw [second.rest x, first.rest x]
  seen x member d k either := by
    rcases either with here | there
    · rw [second.unseen x fun _ d' k' => apart x d k d' k' here]
      exact first.seen x member d k here
    · exact second.seen x member d k there
  unseen x neither := by
    rw [second.unseen x fun member d k there => neither member d k (Or.inr there),
      first.unseen x fun member d k here => neither member d k (Or.inl here)]

theorem Rerated.of_iff (rerated : Rerated nodes ways rate div mult h h')
    (same : ∀ x ∈ nodes, ∀ d k, ways' x d k ↔ ways x d k) :
    Rerated nodes ways' rate div mult h h' where
  rest := rerated.rest
  seen x member d k there := rerated.seen x member d k ((same x member d k).mp there)
  unseen x none' := rerated.unseen x fun member d k there =>
    none' member d k ((same x member d k).mpr there)

/-- The ways through the clocks of a list, seen from their parent. -/
def Through (h : ClkHeap ν) (cs : List ClkPtr) (x : ClkPtr) (d k : Nat) : Prop :=
  ∃ c ∈ cs, ∃ d' k', Path h h.Runs x c d' k' ∧
    d = (h c).divisor.toNat * d' ∧ k = (h c).multiplier.toNat * k'

theorem ofNat_mul_toNat (a : BitVec 64) (b : BitVec 32) (d : Nat) :
    a * BitVec.ofNat 64 (b.toNat * d) = a * b.setWidth 64 * BitVec.ofNat 64 d := by
  have factor : BitVec.ofNat 64 (b.toNat * d) = b.setWidth 64 * BitVec.ofNat 64 d := by
    rw [BitVec.ofNat_mul, BitVec.ofNat_toNat]
  rw [factor, BitVec.mul_assoc]

/-- A walk from one clock, seen from its parent. -/
theorem Rerated.through {c : ClkPtr}
    (rerated : Rerated nodes (Path h h.Runs · c) rate (div * (h c).divisor.setWidth 64)
      (mult * (h c).multiplier.setWidth 64) h h') :
    Rerated nodes (Through h [c]) rate div mult h h' where
  rest := rerated.rest
  seen x member d k there := by
    obtain ⟨c', mem, d', k', path, rfl, rfl⟩ := there
    cases List.mem_singleton.mp mem
    rw [ofNat_mul_toNat, ofNat_mul_toNat]
    exact rerated.seen x member d' k' path
  unseen x none' := rerated.unseen x fun member d k path =>
    none' member _ _ ⟨c, List.mem_singleton_self c, d, k, path, rfl, rfl⟩

theorem Rerated.through_iff {cs : List ClkPtr} (rerated : Rerated nodes ways rate div mult h h') :
    Through h' cs x d k ↔ Through h cs x d k := by
  have divisor : ∀ c, (h' c).divisor = (h c).divisor := fun c => by rw [rerated.rest c]
  have multiplier : ∀ c, (h' c).multiplier = (h c).multiplier := fun c => by rw [rerated.rest c]
  unfold Through
  simp only [rerated.path, divisor, multiplier]

theorem through_cons {c : ClkPtr} {cs : List ClkPtr} :
    Through h (c :: cs) x d k ↔ Through h [c] x d k ∨ Through h cs x d k := by
  unfold Through
  simp only [List.mem_cons, List.not_mem_nil, or_false, exists_eq_or_imp, exists_eq_left]

/-- The ways from a clock lead through its children. -/
theorem path_iff_through {cs : List ClkPtr} (listed : Listed h.links nodes) (runs : h.Runs clk)
    (mem : ∀ c, c ∈ cs ↔ c ∈ nodes ∧ h.links.parent c = some clk) (member : x ∈ nodes) :
    Path h h.Runs x clk d k ↔ x = clk ∧ d = 1 ∧ k = 1 ∨ Through h cs x d k := by
  constructor
  · intro path
    cases path with
    | here => exact Or.inl ⟨rfl, rfl, rfl⟩
    | @down _ c d k up through rest =>
      exact Or.inr ⟨c, (mem c).mpr ⟨listed.above member rest.lower, up⟩, d, k, rest, rfl, rfl⟩
  · rintro (⟨rfl, rfl, rfl⟩ | ⟨c, child, d, k, path, rfl, rfl⟩)
    · exact .here
    · exact .down ((mem c).mp child).2 runs path

/-- The rate of the clock itself. -/
theorem rerated_set (rate mult : BitVec 64) (inside : clk ∈ nodes)
    (nonzero : div.setWidth 32 ≠ 0#32) :
    Rerated nodes (fun x d k => x = clk ∧ d = 1 ∧ k = 1) rate div mult h
      (h.set clk { h clk with rate := muldiv64 rate (mult.setWidth 32) (div.setWidth 32) }) := by
  refine ⟨fun x => ?_, fun x _ d k here => ?_, fun x apart => ?_⟩
  · rcases eq_or_ne x clk with rfl | other
    · rw [set_apply_self]
    · rw [set_apply_of_ne other]
  · obtain ⟨rfl, rfl, rfl⟩ := here
    rw [BitVec.mul_one, BitVec.mul_one, set_apply_self]
    exact ⟨nonzero, rfl⟩
  · rw [set_apply_of_ne]
    rintro rfl
    exact apart inside 1 1 ⟨rfl, rfl, rfl⟩

/-- The rate of the clock, and a walk over its list. -/
theorem Rerated.down {cs : List ClkPtr} (forest : Forest h.links nodes) (inside : clk ∈ nodes)
    (mem : ∀ c, c ∈ cs ↔ c ∈ nodes ∧ h.links.parent c = some clk) (runs : h.Runs clk)
    (first : Rerated nodes (fun x d k => x = clk ∧ d = 1 ∧ k = 1) rate div mult h h')
    (second : Rerated nodes (Through h' cs) rate div mult h' h'') :
    Rerated nodes (Path h h.Runs · clk) rate div mult h h'' := by
  refine (first.append second fun x d k d' k' here there => ?_).of_iff fun x member d k => ?_
  · obtain ⟨rfl, -, -⟩ := here
    obtain ⟨c, child, _, _, path, -, -⟩ := first.through_iff.mp there
    exact (forest.rooted x inside).not_below_child ((mem c).mp child).2 path.lower
  · rw [first.through_iff]
    exact path_iff_through forest.toListed runs mem member

/-- A walk from one clock, and one over the rest of the list. -/
theorem Rerated.cons {c : ClkPtr} {cs : List ClkPtr} (forest : Forest h.links nodes)
    (inside : p ∈ nodes) (children : ∀ a ∈ c :: cs, h.links.parent a = some p) (fresh : c ∉ cs)
    (first : Rerated nodes (Through h [c]) rate div mult h h')
    (second : Rerated nodes (Through h' cs) rate div mult h' h'') :
    Rerated nodes (Through h (c :: cs)) rate div mult h h'' := by
  refine (first.append second fun x d k d' k' here there => ?_).of_iff fun x _ d k => ?_
  · obtain ⟨a, only, _, _, path, -, -⟩ := here
    obtain ⟨b, mem, _, _, path', -, -⟩ := first.through_iff.mp there
    cases List.mem_singleton.mp only
    refine (forest.rooted p inside).siblings_apart (children c List.mem_cons_self)
      (children b (List.mem_cons_of_mem c mem)) ?_ path.lower path'.lower
    exact fun same => fresh (same ▸ mem)
  · rw [first.through_iff]
    exact through_cons

/-- Both walks, by the fuel they share. -/
theorem jzClkRateUpdateFull_rerated (nodes : Set ClkPtr) (fuel : Nat) :
    (∀ {h h' : ClkHeap ν} {clk rate div mult}, Forest h.links nodes → clk ∈ nodes →
      jzClkRateUpdateFull fuel h clk rate div mult = .ok h' →
      Rerated nodes (Path h h.Runs · clk) rate div mult h h') ∧
    ∀ {h h' : ClkHeap ν} {start cs p rate div mult}, Forest h.links nodes → p ∈ nodes →
      Walks h.links.sibling start cs → (∀ c ∈ cs, c ∈ nodes ∧ h.links.parent c = some p) →
      jzClkRateUpdateFullFrom fuel h start rate div mult = .ok h' →
      Rerated nodes (Through h cs) rate div mult h h' := by
  induction fuel with
  | zero => exact ⟨nofun, nofun⟩
  | succ fuel ih =>
    constructor
    · intro h h' clk rate div mult forest inside done
      unfold jzClkRateUpdateFull at done
      split at done
      · cases done
      · next nonzero =>
        dsimp only at done
        have first := rerated_set (h := h) rate mult inside nonzero
        have links := first.shape.links
        have runs := congrArg Clk.running (first.rest clk)
        obtain ⟨cs, walks, mem⟩ := forest.list clk inside
        split at done
        · next running =>
          refine first.down forest inside mem (runs.symm.trans running) ?_
          refine ih.2 (p := clk) (links ▸ forest) inside ?_ (fun c child => ?_) done
          · change Walks _ ((h.set clk _).links.child1 clk) cs
            rw [links]
            exact walks
          · rw [links]
            exact (mem c).mp child
        · next stopped =>
          rw [← Except.ok.inj done]
          refine first.of_iff fun x member d k => ⟨fun path => ?_, ?_⟩
          · cases path with
            | here => exact ⟨rfl, rfl, rfl⟩
            | down _ through _ => exact (stopped (runs.trans through)).elim
          · rintro ⟨rfl, rfl, rfl⟩
            exact .here
    · intro h h' start cs p rate div mult forest inside walks children done
      cases cs with
      | nil =>
        cases walks
        cases done
        refine ⟨fun _ => rfl, fun x _ d k there => ?_, fun _ _ => rfl⟩
        obtain ⟨c, none', -⟩ := there
        exact (List.not_mem_nil none').elim
      | cons c cs =>
        have fresh := (List.nodup_cons.mp walks.nodup).1
        obtain ⟨rfl, walks⟩ := walks
        unfold jzClkRateUpdateFullFrom at done
        split at done
        · cases done
        · next h₁ walked =>
          have first := (ih.1 forest (children c List.mem_cons_self).1 walked).through
          have links := first.shape.links
          refine first.cons forest inside (fun a mem => (children a mem).2) fresh ?_
          refine ih.2 (links ▸ forest) inside ?_ (fun c' mem => ?_) done
          · change Walks _ (h₁.links.sibling c) cs
            rw [links]
            exact walks
          · rw [links]
            exact children c' (List.mem_cons_of_mem c mem)

end Walk

/-! ## The update of a clock -/

/-- What `jz_clk_rate_update` does on a forest. -/
structure RateUpdated (nodes : Set ClkPtr) (clk : ClkPtr) (h h' : ClkHeap ν) : Prop where
  rest : ∀ x, h' x = { h x with rate := (h' x).rate }
  roots : ∀ r, (h r).parent = none → (h' r).rate = (h r).rate
  reached : ∀ x ∈ nodes, ∀ d k, Path h h.Runs x clk d k → h'.RateRight x
  kept : ∀ x ∈ nodes, h.RateRight x → h'.RateRight x

section Update

variable {nodes : Set ClkPtr} {fuel : Nat} {h h' : ClkHeap ν} {go : ClkPtr → Prop}
  {clk x r : ClkPtr} {div mult : BitVec 64} {d k : Nat} {totals : ClkPtr × BitVec 64 × BitVec 64}

theorem Path.any (path : Path h go x r d k) : Path h Any x r d k :=
  path.congr (fun _ _ => ⟨rfl, rfl, rfl⟩) fun _ _ _ => trivial

/-- The loop finds the root and the products on the way to it. -/
theorem of_pathTotals (done : jzClkPathTotals fuel h clk div mult = .ok totals) :
    ∃ r d k, (h r).parent = none ∧ Path h Any clk r d k ∧
      totals = (r, div * BitVec.ofNat 64 d, mult * BitVec.ofNat 64 k) := by
  induction fuel generalizing clk div mult with
  | zero => cases done
  | succ fuel ih =>
    unfold jzClkPathTotals at done
    split at done
    · next top =>
      refine ⟨clk, 1, 1, top, .here, ?_⟩
      rw [BitVec.mul_one, BitVec.mul_one]
      exact (Except.ok.inj done).symm
    · next p up =>
      obtain ⟨r, d, k, root, path, same⟩ := ih done
      refine ⟨r, _, _, root, path.step up trivial, ?_⟩
      rw [same, Nat.mul_comm d, Nat.mul_comm k, ofNat_mul_toNat, ofNat_mul_toNat]

/-- `muldiv64` gets the low half of a product. -/
theorem narrow (a b : Nat) : (1 * BitVec.ofNat 64 a * BitVec.ofNat 64 b).setWidth 32 =
    BitVec.ofNat 32 (a * b) := by
  rw [show (1 : BitVec 64) = 1#64 from rfl, BitVec.one_mul, ← BitVec.ofNat_mul,
    BitVec.setWidth_ofNat_of_le (by decide)]

theorem jzClkRateUpdate_updated (forest : Forest h.links nodes) (inside : clk ∈ nodes)
    (done : jzClkRateUpdate fuel h clk = .ok h') : RateUpdated nodes clk h h' := by
  unfold jzClkRateUpdate at done
  split at done
  · cases done
  · next r₀ div mult totals =>
    obtain ⟨r, d₀, k₀, root, path₀, same⟩ := of_pathTotals totals
    simp only [Prod.mk.injEq] at same
    obtain ⟨rfl, rfl, rfl⟩ := same
    have walk := (jzClkRateUpdateFull_rerated nodes fuel).1 forest inside done
    have same : ∀ {x r d k}, Path h' Any x r d k → Path h Any x r d k := by
      intro x r d k path
      refine path.congr (fun y _ => ?_) fun _ _ _ => trivial
      rw [walk.rest y]
      exact ⟨rfl, rfl, rfl⟩
    have parent : ∀ y, (h' y).parent = (h y).parent := fun y => by rw [walk.rest y]
    have roots : ∀ r, (h r).parent = none → (h' r).rate = (h r).rate := by
      intro r top
      by_cases seen : ∃ d k, Path h h.Runs r clk d k
      · obtain ⟨d, k, path⟩ := seen
        cases path.lower.eq_of_root top
        cases path₀.lower.eq_of_root top
        rcases path₀.cases_step with ⟨-, rfl, rfl⟩ | ⟨p, -, -, up, -⟩
        · rw [(walk.seen _ inside 1 1 .here).2, narrow]
          exact muldiv64_one _
        · cases up.symm.trans top
      · exact walk.unseen r fun _ d k path => seen ⟨d, k, path⟩
    have reached : ∀ x ∈ nodes, ∀ d k, Path h h.Runs x clk d k → h'.RateRight x := by
      intro x member d k path r d' k' top up
      rw [parent] at top
      obtain ⟨rfl, rfl, rfl⟩ := (path₀.append path.any).unique (forest.rooted x member) (same up)
        root top
      have rate := walk.seen x member d k path
      rw [narrow, narrow] at rate
      rw [roots r₀ root]
      exact rate
    refine ⟨walk.rest, roots, reached, fun x member right => ?_⟩
    by_cases seen : ∃ d k, Path h h.Runs x clk d k
    · obtain ⟨d, k, path⟩ := seen
      exact reached x member d k path
    · intro r d k top path
      rw [parent] at top
      rw [walk.unseen x fun _ d k path => seen ⟨d, k, path⟩, roots r top]
      exact right r d k top (same path)

theorem RateUpdated.shape (updated : RateUpdated nodes clk h h') : SameShape h h' := by
  intro x
  rw [updated.rest x]

end Update

end VirtualNoah
