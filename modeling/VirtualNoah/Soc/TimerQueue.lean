import Mathlib
import VirtualNoah.Lib.Outcome
import VirtualNoah.Lib.SiblingForest
import VirtualNoah.Lib.StepRun
import VirtualNoah.Soc.Host

/-!
# QEMU's timers

`vl.c` keeps the armed timers of each clock in a list through the timers themselves, sorted
by their deadlines.  A callback may arm and stop any timer, itself included, while the list
is being run.
-/

namespace VirtualNoah

open Outcome SiblingForest StepRun

variable {τ : Type}

/-! ## The list -/

/-- `QEMU_TIMER_REALTIME` and `QEMU_TIMER_VIRTUAL` -/
inductive TimerClock where
  | realtime
  | virtual
  deriving DecidableEq

/-- `active_timers` and the members of each `QEMUTimer`. -/
structure QemuTimers (τ : Type) where
  activeTimers : TimerClock → Option τ
  next : τ → Option τ
  expireTime : τ → Int
  clock : τ → TimerClock

/-- What a `QEMUTimer **` points to. -/
inductive TimerSlot (τ : Type) where
  | head (c : TimerClock)
  | next (t : τ)
  deriving DecidableEq

namespace QemuTimers

def load (s : QemuTimers τ) : TimerSlot τ → Option τ
  | .head c => s.activeTimers c
  | .next t => s.next t

variable [DecidableEq τ]

def store (s : QemuTimers τ) (pt : TimerSlot τ) (t : Option τ) : QemuTimers τ :=
  match pt with
  | .head c => { s with activeTimers := Function.update s.activeTimers c t }
  | .next u => { s with next := Function.update s.next u t }

/-- The loop of `qemu_del_timer`. -/
def delLoop (ts : τ) : Nat → QemuTimers τ → TimerSlot τ → Except Fault (QemuTimers τ)
  | 0, _, _ => .error .spin
  | fuel + 1, s, pt =>
    match s.load pt with
    | none => .ok s
    | some t => if t = ts then .ok (s.store pt (s.next t)) else delLoop ts fuel s (.next t)

/-- `qemu_del_timer` -/
def qemuDelTimer (fuel : Nat) (s : QemuTimers τ) (ts : τ) : Except Fault (QemuTimers τ) :=
  delLoop ts fuel s (.head (s.clock ts))

/-- The loop of `qemu_mod_timer`. -/
def placeLoop (s : QemuTimers τ) (expireTime : Int) : Nat → TimerSlot τ → Except Fault (TimerSlot τ)
  | 0, _ => .error .spin
  | fuel + 1, pt =>
    match s.load pt with
    | none => .ok pt
    | some t =>
      if expireTime < s.expireTime t then .ok pt else placeLoop s expireTime fuel (.next t)

/-- `ts->expire_time = expire_time; ts->next = *pt; *pt = ts;` -/
def insertAt (s : QemuTimers τ) (ts : τ) (expireTime : Int) (pt : TimerSlot τ) : QemuTimers τ :=
  { s with
    expireTime := Function.update s.expireTime ts expireTime
    next := Function.update s.next ts (s.load pt) }.store pt (some ts)

/-- `qemu_mod_timer`, with whether the alarm timer has to be set anew. -/
def qemuModTimer (fuel : Nat) (s : QemuTimers τ) (ts : τ) (expireTime : Int) :
    Except Fault (QemuTimers τ × Bool) := do
  let s ← s.qemuDelTimer fuel ts
  let pt ← s.placeLoop expireTime fuel (.head (s.clock ts))
  .ok (s.insertAt ts expireTime pt, pt = .head (s.clock ts))

/-- The loop of `qemu_timer_pending`. -/
def pendingLoop (s : QemuTimers τ) (ts : τ) : Nat → Option τ → Except Fault Bool
  | 0, _ => .error .spin
  | _ + 1, none => .ok false
  | fuel + 1, some t => if t = ts then .ok true else pendingLoop s ts fuel (s.next t)

/-- `qemu_timer_pending` -/
def qemuTimerPending (fuel : Nat) (s : QemuTimers τ) (ts : τ) : Except Fault Bool :=
  s.pendingLoop ts fuel (s.activeTimers (s.clock ts))

end QemuTimers

/-- A call of a device or a callback. -/
inductive TimerCall (τ : Type) where
  | mod (ts : τ) (expireTime : Int)
  | del (ts : τ)

def TimerCall.timer : TimerCall τ → τ
  | .mod ts _ => ts
  | .del ts => ts

namespace QemuTimers

variable [DecidableEq τ]

def call (fuel : Nat) (s : QemuTimers τ) : TimerCall τ → Except Fault (QemuTimers τ)
  | .mod ts expireTime => (s.qemuModTimer fuel ts expireTime).map Prod.fst
  | .del ts => s.qemuDelTimer fuel ts

/-- `*ptimer_head = ts->next; ts->next = NULL;` -/
def takeFirst (s : QemuTimers τ) (c : TimerClock) (ts : τ) : QemuTimers τ :=
  (s.store (.head c) (s.next ts)).store (.next ts) none

section Run

variable {σ : Type}

/-- `qemu_run_timers`, with the timers it has fired and the calls their callbacks made; `cb`
is what the callback of a timer does to the rest of the machine, and the calls it makes. -/
def qemuRunTimers (cb : τ → QemuTimers τ → σ → σ × List (TimerCall τ)) (c : TimerClock)
    (currentTime : Int) (fuel : Nat) : Nat → QemuTimers τ → σ →
      Except Fault (QemuTimers τ × σ × List τ × List (TimerCall τ))
  | 0, _, _ => .error .spin
  | turns + 1, s, m =>
    match s.activeTimers c with
    | none => .ok (s, m, [], [])
    | some ts =>
      if currentTime < s.expireTime ts then .ok (s, m, [], [])
      else do
        let s := s.takeFirst c ts
        let called := cb ts s m
        let s ← called.2.foldlM (call fuel) s
        let (s, m, fired, later) ← qemuRunTimers cb c currentTime fuel turns s called.1
        .ok (s, m, ts :: fired, called.2 ++ later)

end Run

end QemuTimers

/-! ## Chains -/

open QemuTimers

section Chains

variable {s t : QemuTimers τ} {pt : TimerSlot τ} {l : List τ} {ts : τ} {fuel : Nat}

theorem first_tail {next : τ → Option τ} (chain : Walks next (some ts) l) :
    ∃ l', l = ts :: l' := by
  cases l with
  | nil => cases chain
  | cons u l =>
    obtain ⟨here, -⟩ := chain
    exact ⟨l, by rw [Option.some.inj here]⟩

theorem head_ne_next (c : TimerClock) (u : τ) : TimerSlot.head c ≠ .next u := by
  simp

/-- `t` is `s` but for the slot `pt` and the next pointers of `l`. -/
def SameBut (s t : QemuTimers τ) (pt : TimerSlot τ) (l : List τ) : Prop :=
  ∀ q, q ≠ pt → (∀ u ∈ l, q ≠ .next u) → t.load q = s.load q

variable [DecidableEq τ]

theorem load_store_self (s : QemuTimers τ) (pt : TimerSlot τ) (o : Option τ) :
    (s.store pt o).load pt = o := by
  cases pt <;> exact Function.update_self ..

theorem load_store_ne {q : TimerSlot τ} (other : q ≠ pt) (o : Option τ) :
    (s.store pt o).load q = s.load q := by
  cases pt with
  | head c =>
    cases q with
    | head c' => exact Function.update_of_ne (fun same => other (congrArg _ same)) _ _
    | next u => rfl
  | next u =>
    cases q with
    | head c => rfl
    | next v => exact Function.update_of_ne (fun same => other (congrArg _ same)) _ _

@[simp] theorem expireTime_store (o : Option τ) :
    (s.store pt o).expireTime = s.expireTime := by
  cases pt <;> rfl

@[simp] theorem clock_store (o : Option τ) : (s.store pt o).clock = s.clock := by
  cases pt <;> rfl

/-- The loop unlinks the timer from the list behind the slot. -/
theorem delLoop_ok (ts : τ) (pt : TimerSlot τ) (chain : Walks s.next (s.load pt) l)
    (outside : ∀ u ∈ l, pt ≠ .next u) (enough : l.length < fuel) :
    ∃ t, delLoop ts fuel s pt = .ok t ∧ Walks t.next (t.load pt) (l.erase ts) ∧
      SameBut s t pt l ∧ t.expireTime = s.expireTime ∧ t.clock = s.clock := by
  induction l generalizing pt fuel with
  | nil =>
    obtain ⟨fuel, rfl⟩ := Nat.exists_eq_succ_of_ne_zero (Nat.ne_of_gt enough)
    refine ⟨s, ?_, chain, fun _ _ _ => rfl, rfl, rfl⟩
    rw [delLoop, show s.load pt = none from chain]
  | cons u l ih =>
    obtain ⟨fuel, rfl⟩ := Nat.exists_eq_succ_of_ne_zero (Nat.ne_zero_of_lt enough)
    have fresh := (List.nodup_cons.mp chain.nodup).1
    obtain ⟨here, rest⟩ := chain
    have outside' : ∀ v ∈ l, pt ≠ .next v := fun v mem => outside v (List.mem_cons_of_mem _ mem)
    by_cases same : u = ts
    · subst same
      refine ⟨s.store pt (s.next u), ?_, ?_, fun q other _ => load_store_ne other _,
        expireTime_store _, clock_store _⟩
      · rw [delLoop, here]
        exact if_pos rfl
      · rw [List.erase_cons_head, load_store_self]
        exact rest.congr fun v mem => load_store_ne (s := s) (outside' v mem).symm _
    · have apart : ∀ v ∈ l, TimerSlot.next u ≠ .next v := by
        intro v mem next
        cases next
        exact fresh mem
      obtain ⟨t, done, chain, frame, expire, clock⟩ :=
        ih (.next u) rest apart (Nat.lt_of_succ_lt_succ enough)
      have kept : t.load pt = s.load pt := frame pt (outside u List.mem_cons_self) outside'
      refine ⟨t, ?_, ?_, ?_, expire, clock⟩
      · rw [delLoop, here]
        exact (if_neg same).trans done
      · rw [List.erase_cons_tail (by simpa using same), kept]
        exact ⟨here, chain⟩
      · intro q other elsewhere
        exact frame q (elsewhere u List.mem_cons_self)
          fun v mem => elsewhere v (List.mem_cons_of_mem _ mem)

/-- What stands behind a slot stands behind the timer put there. -/
theorem insertAt_chain {e : Int} (chain : Walks s.next (s.load pt) l)
    (outside : ∀ u ∈ l, pt ≠ .next u) (new : ts ∉ l) (own : pt ≠ .next ts) :
    Walks (s.insertAt ts e pt).next ((s.insertAt ts e pt).load pt) (ts :: l) := by
  refine ⟨load_store_self .., ?_⟩
  have here : (s.insertAt ts e pt).next ts = s.load pt :=
    (load_store_ne own.symm _).trans (Function.update_self ..)
  rw [here]
  refine chain.congr fun u mem => ?_
  have other : u ≠ ts := fun same => new (same ▸ mem)
  exact (load_store_ne (outside u mem).symm _).trans (Function.update_of_ne other _ _)

theorem insertAt_same (s : QemuTimers τ) (ts : τ) (e : Int) (pt : TimerSlot τ) :
    SameBut s (s.insertAt ts e pt) pt (ts :: l) := by
  intro q other elsewhere
  refine (load_store_ne other _).trans ?_
  cases q with
  | head c => rfl
  | next u =>
    have apart : u ≠ ts := fun same => elsewhere ts List.mem_cons_self (congrArg _ same)
    exact Function.update_of_ne apart _ _

/-- The loop finds the place behind the timers that are due by then. -/
theorem placeLoop_ok {e : Int} (pt : TimerSlot τ) (chain : Walks s.next (s.load pt) l)
    (outside : ∀ u ∈ l, pt ≠ .next u) (new : ts ∉ l) (own : pt ≠ .next ts)
    (enough : l.length < fuel) : ∃ place, s.placeLoop e fuel pt = .ok place ∧
      Walks (s.insertAt ts e place).next ((s.insertAt ts e place).load pt)
        (l.takeWhile (s.expireTime · ≤ e) ++ ts :: l.dropWhile (s.expireTime · ≤ e)) ∧
      SameBut s (s.insertAt ts e place) pt (ts :: l) := by
  induction l generalizing pt fuel with
  | nil =>
    obtain ⟨fuel, rfl⟩ := Nat.exists_eq_succ_of_ne_zero (Nat.ne_of_gt enough)
    refine ⟨pt, ?_, insertAt_chain chain outside new own, insertAt_same _ _ _ _⟩
    rw [placeLoop, show s.load pt = none from chain]
  | cons u l ih =>
    obtain ⟨fuel, rfl⟩ := Nat.exists_eq_succ_of_ne_zero (Nat.ne_zero_of_lt enough)
    have fresh := (List.nodup_cons.mp chain.nodup).1
    obtain ⟨here, rest⟩ := id chain
    obtain ⟨other, new'⟩ := List.ne_and_not_mem_of_not_mem_cons new
    by_cases due : s.expireTime u ≤ e
    · have apart : ∀ v ∈ l, TimerSlot.next u ≠ .next v := by
        intro v mem next
        cases next
        exact fresh mem
      have own' : TimerSlot.next u ≠ .next ts := fun next => other (by cases next; rfl)
      obtain ⟨place, found, behind, frame⟩ :=
        ih (.next u) rest apart new' own' (Nat.lt_of_succ_lt_succ enough)
      have kept : (s.insertAt ts e place).load pt = some u := by
        rw [← here]
        refine frame pt (outside u List.mem_cons_self) fun v mem => ?_
        rcases List.mem_cons.mp mem with rfl | mem
        · exact own
        · exact outside v (List.mem_cons_of_mem _ mem)
      refine ⟨place, ?_, ?_, ?_⟩
      · rw [placeLoop, here]
        exact (if_neg (not_lt.mpr due)).trans found
      · rw [List.takeWhile_cons_of_pos (by simpa using due),
          List.dropWhile_cons_of_pos (by simpa using due), kept]
        exact ⟨rfl, behind⟩
      · intro q apart elsewhere
        refine frame q (elsewhere u (by simp)) fun v mem => elsewhere v ?_
        rcases List.mem_cons.mp mem with rfl | mem
        · exact List.mem_cons_self
        · exact List.mem_cons_of_mem _ (List.mem_cons_of_mem _ mem)
    · rw [List.takeWhile_cons_of_neg (by simpa using due),
        List.dropWhile_cons_of_neg (by simpa using due)]
      refine ⟨pt, ?_, insertAt_chain chain outside new own, insertAt_same _ _ _ _⟩
      rw [placeLoop, here]
      exact if_pos (not_le.mp due)

end Chains

/-! ## The lists of the two clocks -/

/-- `l` with the timer `ts` behind the timers that are due by `e`. -/
def armIn (due : τ → Int) (e : Int) (ts : τ) (l : List τ) : List τ :=
  l.takeWhile (due · ≤ e) ++ ts :: l.dropWhile (due · ≤ e)

/-- `q c` is the list of the timers armed on the clock `c`, each of them one of `made`. -/
structure TimerLists (made : Finset τ) (s : QemuTimers τ) (q : TimerClock → List τ) :
    Prop where
  chain : ∀ c, Walks s.next (s.activeTimers c) (q c)
  inside : ∀ c, ∀ ts ∈ q c, s.clock ts = c ∧ ts ∈ made
  sorted : ∀ c, (q c).Pairwise (s.expireTime · ≤ s.expireTime ·)

section Arm

variable {due : τ → Int} {e : Int} {ts : τ} {l : List τ}

theorem armIn_perm : (armIn due e ts l).Perm (ts :: l) := by
  refine List.perm_middle.trans ?_
  rw [List.takeWhile_append_dropWhile]

theorem lt_of_mem_dropWhile (sorted : l.Pairwise (due · ≤ due ·)) {u : τ}
    (mem : u ∈ l.dropWhile (due · ≤ e)) : e < due u := by
  induction l with
  | nil => cases mem
  | cons v l ih =>
    obtain ⟨first, sorted⟩ := List.pairwise_cons.mp sorted
    by_cases early : due v ≤ e
    · rw [List.dropWhile_cons_of_pos (by simpa using early)] at mem
      exact ih sorted mem
    · rw [List.dropWhile_cons_of_neg (by simpa using early)] at mem
      have late := not_le.mp early
      rcases List.mem_cons.mp mem with rfl | mem
      · exact late
      · exact lt_of_lt_of_le late (first u mem)

variable [DecidableEq τ]

/-- The list stays sorted by the deadlines, that of the new timer included. -/
theorem armIn_sorted (sorted : l.Pairwise (due · ≤ due ·)) (new : ts ∉ l) :
    (armIn due e ts l).Pairwise
      (Function.update due ts e · ≤ Function.update due ts e ·) := by
  have kept : ∀ u ∈ l, Function.update due ts e u = due u := by
    intro u mem
    exact Function.update_of_ne (fun same : u = ts => new (same ▸ mem)) _ _
  have sorted' : l.Pairwise (Function.update due ts e · ≤ Function.update due ts e ·) := by
    refine sorted.imp_of_mem fun {u v} first second le => ?_
    rwa [kept u first, kept v second]
  have early : ∀ u ∈ l.takeWhile (due · ≤ e), Function.update due ts e u ≤ e := by
    intro u mem
    rw [kept u ((List.takeWhile_sublist _).subset mem)]
    simpa using List.mem_takeWhile_imp mem
  have late : ∀ u ∈ l.dropWhile (due · ≤ e), e ≤ Function.update due ts e u := by
    intro u mem
    rw [kept u ((List.dropWhile_sublist _).subset mem)]
    exact (lt_of_mem_dropWhile sorted mem).le
  have here : Function.update due ts e ts = e := Function.update_self ..
  refine List.pairwise_append.mpr ⟨sorted'.sublist (List.takeWhile_sublist _),
    List.pairwise_cons.mpr ⟨?_, sorted'.sublist (List.dropWhile_sublist _)⟩, ?_⟩
  · intro v back
    exact here.le.trans (late v back)
  · intro u front v back
    rcases List.mem_cons.mp back with rfl | back
    · exact (early u front).trans here.ge
    · exact (early u front).trans (late v back)

/-- A later timer is not among those that are due now. -/
theorem armIn_due {now : Int} (new : ts ∉ l) (late : now < e) :
    (armIn due e ts l).filter (Function.update due ts e · ≤ now) = l.filter (due · ≤ now) := by
  have kept : ∀ u ∈ l, decide (Function.update due ts e u ≤ now) = decide (due u ≤ now) := by
    intro u mem
    rw [Function.update_of_ne fun same : u = ts => new (same ▸ mem)]
  have out : ¬ decide (Function.update due ts e ts ≤ now) = true := by
    rw [Function.update_self]
    simpa using late
  have skip := List.filter_cons_of_neg (p := fun u => decide (Function.update due ts e u ≤ now))
    (l := l.dropWhile (due · ≤ e)) out
  rw [armIn, List.filter_append, skip, ← List.filter_append, List.takeWhile_append_dropWhile]
  exact List.filter_congr kept

end Arm

section Lists

variable {made : Finset τ} {s t : QemuTimers τ} {q : TimerClock → List τ} {c : TimerClock}
  {l l' : List τ} {ts : τ} {fuel : Nat}

theorem TimerLists.once (lists : TimerLists made s q) (c : TimerClock) : (q c).Nodup :=
  (lists.chain c).nodup

theorem TimerLists.head_mem (lists : TimerLists made s q) (head : s.activeTimers c = some ts) :
    ts ∈ q c := by
  obtain ⟨l, queue⟩ := first_tail (head ▸ lists.chain c)
  exact queue ▸ List.mem_cons_self

/-- A new list for one clock, behind changes to its own timers alone. -/
theorem TimerLists.relist (lists : TimerLists made s q) (frame : SameBut s t (.head c) l)
    (near : ∀ u ∈ l, s.clock u = c) (clock : t.clock = s.clock)
    (expire : ∀ u, s.clock u ≠ c → t.expireTime u = s.expireTime u)
    (chain : Walks t.next (t.activeTimers c) l')
    (inside : ∀ u ∈ l', s.clock u = c ∧ u ∈ made)
    (sorted : l'.Pairwise (t.expireTime · ≤ t.expireTime ·)) :
    TimerLists made t (Function.update q c l') := by
  have away : ∀ {c'}, c' ≠ c → ∀ u ∈ q c', s.clock u ≠ c := by
    intro c' other u mem same
    exact other ((lists.inside c' u mem).1.symm.trans same)
  refine ⟨fun c' => ?_, fun c' => ?_, fun c' => ?_⟩ <;> by_cases same : c' = c
  · subst same
    rwa [Function.update_self]
  · rw [Function.update_of_ne same]
    have head : t.activeTimers c' = s.activeTimers c' := by
      refine frame (.head c') (fun heads => same (by cases heads; rfl)) fun u _ heads => ?_
      cases heads
    rw [head]
    refine (lists.chain c').congr fun u mem => frame (.next u) (fun heads => ?_) ?_
    · cases heads
    · intro v own nexts
      cases nexts
      exact away same u mem (near u own)
  · subst same
    rwa [Function.update_self, clock]
  · rw [Function.update_of_ne same, clock]
    exact lists.inside c'
  · subst same
    rwa [Function.update_self]
  · rw [Function.update_of_ne same]
    refine (lists.sorted c').imp_of_mem fun {u v} first second le => ?_
    rwa [expire u (away same u first), expire v (away same v second)]

variable [DecidableEq τ]

theorem TimerLists.length_le (lists : TimerLists made s q) (c : TimerClock) :
    (q c).length ≤ made.card := by
  rw [← List.toFinset_card_of_nodup (lists.once c)]
  refine Finset.card_le_card fun ts mem => ?_
  exact (lists.inside c ts (List.mem_toFinset.mp mem)).2

theorem qemuDelTimer_ok (ts : τ) (lists : TimerLists made s q) (enough : made.card < fuel) :
    ∃ t, s.qemuDelTimer fuel ts = .ok t ∧
      TimerLists made t (Function.update q (s.clock ts) ((q (s.clock ts)).erase ts)) ∧
      t.expireTime = s.expireTime ∧ t.clock = s.clock := by
  obtain ⟨t, done, chain, frame, expire, clock⟩ :=
    delLoop_ok ts (.head (s.clock ts)) (lists.chain (s.clock ts))
      (fun _ _ => head_ne_next _ _) ((lists.length_le _).trans_lt enough)
  refine ⟨t, done, ?_, expire, clock⟩
  refine lists.relist frame (fun u mem => (lists.inside _ u mem).1) clock
    (fun u _ => congrFun expire u) chain
    (fun u mem => lists.inside _ u (List.mem_of_mem_erase mem)) ?_
  rw [expire]
  exact (lists.sorted _).sublist List.erase_sublist

/-- `qemu_mod_timer` moves the timer behind those that are due by then, and sets the alarm
timer anew when it is the first. -/
theorem qemuModTimer_ok {e : Int} (lists : TimerLists made s q) (known : ts ∈ made)
    (enough : made.card < fuel) :
    ∃ t rearm, s.qemuModTimer fuel ts e = .ok (t, rearm) ∧
      TimerLists made t (Function.update q (s.clock ts)
        (armIn s.expireTime e ts ((q (s.clock ts)).erase ts))) ∧
      t.expireTime = Function.update s.expireTime ts e ∧ t.clock = s.clock ∧
      (rearm = true ↔ t.activeTimers (s.clock ts) = some ts) := by
  obtain ⟨u, gone, lists', expire, clock⟩ := qemuDelTimer_ok ts lists enough
  have chain := lists'.chain (s.clock ts)
  have sorted := lists'.sorted (s.clock ts)
  have inside := lists'.inside (s.clock ts)
  rw [Function.update_self] at chain sorted inside
  have new : ts ∉ (q (s.clock ts)).erase ts := (lists.once _).not_mem_erase
  have enough' : ((q (s.clock ts)).erase ts).length < fuel :=
    List.length_erase_le.trans_lt ((lists.length_le _).trans_lt enough)
  obtain ⟨place, found, behind, frame⟩ := placeLoop_ok (e := e) (.head (s.clock ts)) chain
    (fun _ _ => head_ne_next _ _) new (head_ne_next _ _) enough'
  have near : ∀ v ∈ ts :: (q (s.clock ts)).erase ts, u.clock v = s.clock ts ∧ v ∈ made := by
    intro v mem
    rcases List.mem_cons.mp mem with rfl | mem
    · exact ⟨congrFun clock v, known⟩
    · exact inside v mem
  have due : (u.insertAt ts e place).expireTime = Function.update s.expireTime ts e := by
    rw [insertAt, expireTime_store, expire]
  refine ⟨u.insertAt ts e place, decide (place = .head (s.clock ts)), ?_, ?_, due,
    (clock_store _).trans clock, decide_eq_true_iff.trans ⟨?_, ?_⟩⟩
  · rw [qemuModTimer, bind_ok gone, clock, bind_ok found]
  · rw [← expire]
    have sorted' : (armIn u.expireTime e ts ((q (s.clock ts)).erase ts)).Pairwise
        ((u.insertAt ts e place).expireTime · ≤ (u.insertAt ts e place).expireTime ·) := by
      rw [due, ← expire]
      exact armIn_sorted sorted new
    have elsewhere : ∀ v, u.clock v ≠ s.clock ts →
        (u.insertAt ts e place).expireTime v = u.expireTime v := by
      intro v other
      rw [due, expire]
      exact Function.update_of_ne (fun same => other (by rw [same, clock])) _ _
    have relisted := lists'.relist frame (fun v mem => (near v mem).1) (clock_store _) elsewhere
      behind (fun v mem => near v (armIn_perm.mem_iff.mp mem)) sorted'
    rwa [Function.update_idem] at relisted
  · rintro rfl
    exact load_store_self _ (.head _) _
  · intro first
    by_contra later
    have kept := insertAt_same (l := []) u ts e place (.head (s.clock ts))
      (fun same => later same.symm) fun _ _ => head_ne_next _ _
    rw [show u.activeTimers (s.clock ts) = some ts from kept.symm.trans first] at chain
    obtain ⟨l, starts⟩ := first_tail chain
    exact new (starts ▸ List.mem_cons_self)

theorem pendingLoop_ok (ts : τ) {o : Option τ} (chain : Walks s.next o l)
    (enough : l.length < fuel) :
    s.pendingLoop ts fuel o = .ok (decide (ts ∈ l)) := by
  induction l generalizing o fuel with
  | nil =>
    obtain ⟨fuel, rfl⟩ := Nat.exists_eq_succ_of_ne_zero (Nat.ne_of_gt enough)
    rw [show o = none from chain]
    rfl
  | cons u l ih =>
    obtain ⟨fuel, rfl⟩ := Nat.exists_eq_succ_of_ne_zero (Nat.ne_zero_of_lt enough)
    obtain ⟨rfl, rest⟩ := chain
    rw [pendingLoop, ih rest (Nat.lt_of_succ_lt_succ enough)]
    by_cases same : u = ts
    · simp [same]
    · simp [same, Ne.symm same]

end Lists

/-! ## The calls -/

/-- What a call asks for: the deadlines of the armed timers. -/
def TimerCall.ask [DecidableEq τ] (armed : τ → Option Int) : TimerCall τ → τ → Option Int
  | .mod ts expireTime => Function.update armed ts (some expireTime)
  | .del ts => Function.update armed ts none

/-- A call that arms no timer of the clock `c` to be due by `now`. -/
def TimerCall.Later (x : TimerCall τ) (clock : τ → TimerClock) (c : TimerClock) (now : Int) :
    Prop :=
  ∀ ts e, x = .mod ts e → clock ts = c → now < e

/-- The timers of the lists are those of `armed`, with its deadlines. -/
structure TimersArmed (made : Finset τ) (s : QemuTimers τ) (q : TimerClock → List τ)
    (armed : τ → Option Int) : Prop where
  lists : TimerLists made s q
  deadline : ∀ ts e, armed ts = some e ↔ ts ∈ q (s.clock ts) ∧ s.expireTime ts = e

/-- The timers of a list that are due, the first one first. -/
def expired (s : QemuTimers τ) (now : Int) (l : List τ) : List τ :=
  l.filter (s.expireTime · ≤ now)

section Calls

variable [DecidableEq τ] {made : Finset τ} {s t : QemuTimers τ} {q : TimerClock → List τ}
  {armed : τ → Option Int} {x : TimerCall τ} {fuel : Nat}

theorem TimersArmed.pending (holds : TimersArmed made s q armed) (enough : made.card < fuel)
    (ts : τ) : s.qemuTimerPending fuel ts = .ok (armed ts).isSome := by
  have found := pendingLoop_ok ts (holds.lists.chain (s.clock ts))
    ((holds.lists.length_le _).trans_lt enough)
  rw [qemuTimerPending, found]
  congr 1
  cases deadline : armed ts with
  | none =>
    refine decide_eq_false fun mem => ?_
    have := (holds.deadline ts _).mpr ⟨mem, rfl⟩
    rw [deadline] at this
    cases this
  | some e => exact decide_eq_true ((holds.deadline ts e).mp deadline).1

/-- A new list and deadline for one timer, where the others on its clock stay. -/
theorem TimersArmed.rearm (holds : TimersArmed made s q armed) {ts : τ} {l : List τ}
    {o : Option Int} (lists : TimerLists made t (Function.update q (s.clock ts) l))
    (clock : t.clock = s.clock) (others : ∀ u, u ≠ ts → (u ∈ l ↔ u ∈ q (s.clock ts)))
    (expire : ∀ u, u ≠ ts → t.expireTime u = s.expireTime u)
    (own : ∀ e, o = some e ↔ ts ∈ l ∧ t.expireTime ts = e) :
    TimersArmed made t (Function.update q (s.clock ts) l) (Function.update armed ts o) := by
  refine ⟨lists, fun u e => ?_⟩
  rw [clock]
  by_cases same : u = ts
  · subst same
    rw [Function.update_self, Function.update_self]
    exact own e
  · rw [Function.update_of_ne same, holds.deadline, expire u same]
    refine and_congr_left fun _ => ?_
    by_cases clocks : s.clock u = s.clock ts
    · rw [clocks, Function.update_self, others u same]
    · rw [Function.update_of_ne clocks]

/-- A call does what it asks for.  One that arms no timer to be due by `now` puts none among
those that are. -/
theorem call_ok (holds : TimersArmed made s q armed) (known : x.timer ∈ made)
    (enough : made.card < fuel) :
    ∃ t q', s.call fuel x = .ok t ∧ TimersArmed made t q' (x.ask armed) ∧ t.clock = s.clock ∧
      ∀ c now, x.Later s.clock c now →
        (expired t now (q' c)).Sublist (expired s now (q c)) := by
  cases x with
  | mod ts e =>
    have known : ts ∈ made := known
    obtain ⟨t, rearm, done, lists, expire, clock, -⟩ :=
      qemuModTimer_ok (e := e) holds.lists known enough
    have new : ts ∉ (q (s.clock ts)).erase ts := (holds.lists.once _).not_mem_erase
    refine ⟨t, _, by rw [call, done]; rfl,
      holds.rearm lists clock (fun u other => ?_) (fun u other => ?_) (fun e' => ?_), clock, ?_⟩
    · rw [armIn_perm.mem_iff, List.mem_cons, List.mem_erase_of_ne other, or_iff_right other]
    · rw [expire, Function.update_of_ne other]
    · rw [expire, Function.update_self]
      simp [armIn_perm.mem_iff]
    · intro c now later
      by_cases own : c = s.clock ts
      · subst own
        rw [expired, expire, Function.update_self, armIn_due new (later ts e rfl rfl)]
        exact List.erase_sublist.filter _
      · rw [expired, expire, Function.update_of_ne own]
        have kept : ∀ u ∈ q c, decide (Function.update s.expireTime ts e u ≤ now) =
            decide (s.expireTime u ≤ now) := by
          intro u mem
          have apart : u ≠ ts := fun same => own (same ▸ (holds.lists.inside c u mem).1.symm)
          rw [Function.update_of_ne apart]
        rw [List.filter_congr kept]
        exact List.Sublist.refl _
  | del ts =>
    obtain ⟨t, done, lists, expire, clock⟩ := qemuDelTimer_ok ts holds.lists enough
    have gone : ts ∉ (q (s.clock ts)).erase ts := (holds.lists.once _).not_mem_erase
    refine ⟨t, _, done, holds.rearm lists clock (fun u other => List.mem_erase_of_ne other)
      (fun u _ => congrFun expire u) (fun e' => by simp [gone]), clock, ?_⟩
    · intro c now _
      rw [expired, expire]
      by_cases own : c = s.clock ts
      · subst own
        rw [Function.update_self]
        exact List.erase_sublist.filter _
      · rw [Function.update_of_ne own]
        exact List.Sublist.refl _

/-- The deadlines that a list of calls asks for. -/
def asked (armed : τ → Option Int) (calls : List (TimerCall τ)) : τ → Option Int :=
  calls.foldl TimerCall.ask armed

theorem asked_other {calls : List (TimerCall τ)} {ts : τ} (unnamed : ∀ x ∈ calls, x.timer ≠ ts)
    (armed : τ → Option Int) : asked armed calls ts = armed ts := by
  induction calls generalizing armed with
  | nil => rfl
  | cons x calls ih =>
    have rest := ih (fun y mem => unnamed y (List.mem_cons_of_mem _ mem)) (x.ask armed)
    refine rest.trans ?_
    have other := (unnamed x List.mem_cons_self).symm
    cases x <;> exact Function.update_of_ne other _ _

theorem asked_congr {armed' : τ → Option Int} {ts : τ} (calls : List (TimerCall τ))
    (same : armed ts = armed' ts) : asked armed calls ts = asked armed' calls ts := by
  induction calls generalizing armed armed' with
  | nil => exact same
  | cons x calls ih =>
    refine ih ?_
    cases x <;> simp only [TimerCall.ask, Function.update_apply, same]

theorem calls_ok {calls : List (TimerCall τ)} (holds : TimersArmed made s q armed)
    (known : ∀ x ∈ calls, x.timer ∈ made) (enough : made.card < fuel) :
    ∃ t q', calls.foldlM (call fuel) s = .ok t ∧ TimersArmed made t q' (asked armed calls) ∧
      t.clock = s.clock ∧ ∀ c now, (∀ x ∈ calls, x.Later s.clock c now) →
        (expired t now (q' c)).Sublist (expired s now (q c)) := by
  induction calls generalizing s q armed with
  | nil => exact ⟨s, q, rfl, holds, rfl, fun _ _ _ => List.Sublist.refl _⟩
  | cons x calls ih =>
    obtain ⟨u, r, first, holds, clock, fewer⟩ := call_ok holds (known x List.mem_cons_self) enough
    obtain ⟨t, q', rest, holds, clock', fewer'⟩ :=
      ih holds fun y mem => known y (List.mem_cons_of_mem _ mem)
    refine ⟨t, q', ?_, holds, clock'.trans clock, fun c now later => ?_⟩
    · rw [List.foldlM_cons, bind_ok first, rest]
    · rw [clock] at fewer'
      exact (fewer' c now fun y mem => later y (List.mem_cons_of_mem _ mem)).trans
        (fewer c now (later x List.mem_cons_self))

/-- No timer has been armed yet. -/
def newTimers (clock : τ → TimerClock) : QemuTimers τ where
  activeTimers _ := none
  next _ := none
  expireTime _ := 0
  clock := clock

omit [DecidableEq τ] in
theorem newTimers_armed (clock : τ → TimerClock) :
    TimersArmed made (newTimers clock) (fun _ => []) fun _ => none where
  lists :=
    { chain := fun _ => rfl
      inside := fun _ _ mem => by cases mem
      sorted := fun _ => List.Pairwise.nil }
  deadline ts e := by simp

/-- After any calls the list of a clock holds the timers that are to be armed on it, each of
them once and sorted by its last deadline. -/
theorem timers_run (clock : τ → TimerClock) (calls : List (TimerCall τ))
    (known : ∀ x ∈ calls, x.timer ∈ made) (enough : made.card < fuel) :
    ∃ s, calls.foldlM (call fuel) (newTimers clock) = .ok s ∧
      (∀ c, ∃ l, Walks s.next (s.activeTimers c) l ∧ l.Nodup ∧
        l.Pairwise (s.expireTime · ≤ s.expireTime ·) ∧
        ∀ ts, ts ∈ l ↔ clock ts = c ∧ (asked (fun _ => none) calls ts).isSome) ∧
      (∀ ts e, asked (fun _ => none) calls ts = some e → s.expireTime ts = e) ∧
      ∀ ts, s.qemuTimerPending fuel ts = .ok (asked (fun _ => none) calls ts).isSome := by
  obtain ⟨s, q, done, holds, same, -⟩ := calls_ok (newTimers_armed clock) known enough
  refine ⟨s, done, fun c => ⟨q c, holds.lists.chain c, holds.lists.once c, holds.lists.sorted c,
    fun ts => ⟨fun mem => ?_, ?_⟩⟩, fun ts e deadline => ((holds.deadline ts e).mp deadline).2,
    holds.pending enough⟩
  · obtain ⟨own, -⟩ := holds.lists.inside c ts mem
    rw [(holds.deadline ts _).mpr ⟨own.symm ▸ mem, rfl⟩]
    exact ⟨(congrFun same ts).symm.trans own, rfl⟩
  · rintro ⟨own, deadline⟩
    obtain ⟨e, deadline⟩ := Option.isSome_iff_exists.mp deadline
    have mem := ((holds.deadline ts e).mp deadline).1
    rw [same] at mem
    exact own ▸ mem

theorem timers_run_moved : ∃ s,
    [TimerCall.mod 1 5, .mod 2 3, .mod 1 2].foldlM (call 3) (newTimers fun _ => .virtual) =
        .ok s ∧
      s.expireTime 1 = 2 ∧ s.qemuTimerPending 3 1 = .ok true := by
  have enough : ({1, 2} : Finset Nat).card < 3 := by decide
  obtain ⟨s, done, -, expire, pending⟩ :=
    timers_run (fun _ => .virtual) [.mod 1 5, .mod 2 3, .mod 1 2] (by decide) enough
  exact ⟨s, done, expire 1 2 rfl, pending 1⟩

end Calls

/-! ## Running the timers -/

section Run

variable {made : Finset τ} {s : QemuTimers τ} {q : TimerClock → List τ}
  {armed : τ → Option Int} {fuel : Nat} {c : TimerClock} {now : Int} {ts : τ} {l : List τ}

theorem TimersArmed.mem_expired (holds : TimersArmed made s q armed) :
    ts ∈ expired s now (q c) ↔ s.clock ts = c ∧ ∃ e ≤ now, armed ts = some e := by
  rw [expired, List.mem_filter, decide_eq_true_iff]
  constructor
  · rintro ⟨mem, due⟩
    obtain ⟨own, -⟩ := holds.lists.inside c ts mem
    exact ⟨own, _, due, (holds.deadline ts _).mpr ⟨own.symm ▸ mem, rfl⟩⟩
  · rintro ⟨own, e, due, deadline⟩
    obtain ⟨mem, rfl⟩ := (holds.deadline ts e).mp deadline
    exact ⟨own ▸ mem, due⟩

theorem expired_nil (holds : TimersArmed made s q armed)
    (head : ∀ u, s.activeTimers c = some u → now < s.expireTime u) :
    expired s now (q c) = [] := by
  have chain := holds.lists.chain c
  have sorted := holds.lists.sorted c
  refine List.filter_eq_nil_iff.mpr fun v mem => ?_
  cases queue : q c with
  | nil => simp [queue] at mem
  | cons u l =>
    rw [queue] at chain sorted mem
    have late := head u chain.1
    rcases List.mem_cons.mp mem with rfl | mem
    · simpa using late
    · simpa using late.trans_le ((List.pairwise_cons.mp sorted).1 v mem)

variable [DecidableEq τ]

/-- The first timer leaves the list before its callback is called. -/
theorem takeFirst_ok (holds : TimersArmed made s q armed) (first : q c = ts :: l) :
    TimersArmed made (s.takeFirst c ts) (Function.update q c l)
      (Function.update armed ts none) := by
  have chain := holds.lists.chain c
  have fresh := holds.lists.once c
  have sorted := holds.lists.sorted c
  have inside := holds.lists.inside c
  rw [first] at chain fresh sorted inside
  replace fresh := (List.nodup_cons.mp fresh).1
  obtain ⟨own, -⟩ := inside ts List.mem_cons_self
  have expire : (s.takeFirst c ts).expireTime = s.expireTime := by
    rw [takeFirst, expireTime_store, expireTime_store]
  have clock : (s.takeFirst c ts).clock = s.clock := by
    rw [takeFirst, clock_store, clock_store]
  have frame : SameBut s (s.takeFirst c ts) (.head c) [ts] := by
    intro p other elsewhere
    exact (load_store_ne (elsewhere ts List.mem_cons_self) _).trans (load_store_ne other _)
  have head : (s.takeFirst c ts).activeTimers c = s.next ts :=
    (load_store_ne (head_ne_next c ts) _).trans (load_store_self s (.head c) _)
  have rest : Walks (s.takeFirst c ts).next ((s.takeFirst c ts).activeTimers c) l := by
    rw [head]
    refine chain.2.congr fun u mem => frame (.next u) (head_ne_next c u).symm ?_
    rintro v only nexts
    cases nexts
    exact fresh (List.mem_singleton.mp only ▸ mem)
  have sorted' :
      l.Pairwise ((s.takeFirst c ts).expireTime · ≤ (s.takeFirst c ts).expireTime ·) := by
    rw [expire]
    exact (List.pairwise_cons.mp sorted).2
  have near : ∀ u ∈ [ts], s.clock u = c := by
    intro u only
    rw [List.mem_singleton.mp only, own]
  have lists := holds.lists.relist frame near clock (fun u _ => congrFun expire u) rest
    (fun u mem => inside u (List.mem_cons_of_mem _ mem)) sorted'
  subst own
  refine holds.rearm lists clock (fun u other => ?_) (fun u _ => congrFun expire u) fun e => ?_
  · rw [first, List.mem_cons, or_iff_right other]
  · simp [fresh]

variable {σ : Type} {cb : τ → QemuTimers τ → σ → σ × List (TimerCall τ)} {turns : Nat} {m : σ}
  {Valid : σ → Prop}

theorem TimersArmed.late_of_pending (holds : TimersArmed made s q armed)
    (empty : expired s now (q c) = []) (enough : made.card < fuel) (own : s.clock ts = c)
    (pending : s.qemuTimerPending fuel ts = .ok true) : now < s.expireTime ts := by
  rw [holds.pending enough] at pending
  obtain ⟨e, deadline⟩ := Option.isSome_iff_exists.mp (Except.ok.inj pending)
  by_contra due
  obtain ⟨-, rfl⟩ := (holds.deadline ts e).mp deadline
  have mem : ts ∈ expired s now (q c) := holds.mem_expired.mpr ⟨own, _, not_lt.mp due, deadline⟩
  rw [empty] at mem
  cases mem

/-- One turn of the loop fires the first timer. -/
theorem turn_ok (turns : Nat) (holds : TimersArmed made s q armed)
    (head : s.activeTimers c = some ts) (early : s.expireTime ts ≤ now)
    (known : ∀ x ∈ (cb ts (s.takeFirst c ts) m).2, x.timer ∈ made)
    (enough : made.card < fuel) :
    ∃ l t r, expired s now (q c) = ts :: expired s now l ∧
      (qemuRunTimers cb c now fuel (turns + 1) s m =
        qemuRunTimers cb c now fuel turns t (cb ts (s.takeFirst c ts) m).1 >>= fun out =>
          .ok (out.1, out.2.1, ts :: out.2.2.1, (cb ts (s.takeFirst c ts) m).2 ++ out.2.2.2)) ∧
      TimersArmed made t r
        (asked (Function.update armed ts none) (cb ts (s.takeFirst c ts) m).2) ∧
      t.clock = s.clock ∧
      ((∀ x ∈ (cb ts (s.takeFirst c ts) m).2, x.Later s.clock c now) →
        (expired t now (r c)).Sublist (expired s now l)) ∧
      ∀ u ∈ expired s now l, (∀ x ∈ (cb ts (s.takeFirst c ts) m).2, x.timer ≠ u) →
        u ∈ expired t now (r c) := by
  obtain ⟨l, queue⟩ : ∃ l, q c = ts :: l := first_tail (head ▸ holds.lists.chain c)
  have popped := takeFirst_ok holds queue
  have was : expired s now (q c) = ts :: expired s now l := by
    rw [queue]
    exact List.filter_cons_of_pos (decide_eq_true early)
  have left : expired (s.takeFirst c ts) now (Function.update q c l c) = expired s now l := by
    rw [expired, takeFirst, expireTime_store, expireTime_store, Function.update_self, expired]
  have clock : (s.takeFirst c ts).clock = s.clock := by
    rw [takeFirst, clock_store, clock_store]
  obtain ⟨t, r, done, holds', clock', fewer⟩ := calls_ok popped known enough
  rw [clock] at clock' fewer
  refine ⟨l, t, r, was, ?_, holds', clock', fun later => left ▸ fewer c now later, ?_⟩
  · rw [qemuRunTimers, head]
    refine (if_neg (not_lt.mpr early)).trans ?_
    rw [bind_ok done]
  · intro u mem unnamed
    -- a timer that the callback has not named is due as before
    have kept := asked_other unnamed (Function.update armed ts none)
    rwa [← left, popped.mem_expired, clock, ← kept, ← clock', ← holds'.mem_expired] at mem

/-- The induction is on the turns, with a timer fewer that is due for each that is fired: no
callback arms another that is. -/
theorem qemuRunTimers_ok (holds : TimersArmed made s q armed)
    (callbacks : ∀ ts ∈ made, ∀ t m, Valid m → Valid (cb ts t m).1 ∧
      ∀ x ∈ (cb ts t m).2, x.timer ∈ made ∧ x.Later s.clock c now)
    (enough : made.card < fuel) (due : (expired s now (q c)).length < turns) (valid : Valid m) :
    ∃ s' m' fired calls q' armed',
      qemuRunTimers cb c now fuel turns s m = .ok (s', m', fired, calls) ∧
      TimersArmed made s' q' armed' ∧ s'.clock = s.clock ∧ expired s' now (q' c) = [] ∧
      fired.Sublist (expired s now (q c)) ∧
      ∀ u ∈ expired s now (q c), u ∈ fired ∨ ∃ x ∈ calls, x.timer = u := by
  induction turns generalizing s q armed m with
  | zero => exact absurd due (Nat.not_lt_zero _)
  | succ turns ih =>
    by_cases stop : ∀ u, s.activeTimers c = some u → now < s.expireTime u
    · have empty := expired_nil holds stop
      refine ⟨s, m, [], [], q, armed, ?_, holds, rfl, empty, List.nil_sublist _, ?_⟩
      · cases head : s.activeTimers c with
        | none => rw [qemuRunTimers, head]
        | some u =>
          rw [qemuRunTimers, head]
          exact if_pos (stop u head)
      · rw [empty]
        exact fun _ mem => absurd mem List.not_mem_nil
    · simp only [not_forall, not_lt, exists_prop] at stop
      obtain ⟨ts, head, early⟩ := stop
      have mine := (holds.lists.inside c ts (holds.lists.head_mem head)).2
      obtain ⟨valid, named⟩ := callbacks ts mine (s.takeFirst c ts) m valid
      obtain ⟨l, t, r, was, step, holds', clock, fewer, kept⟩ :=
        turn_ok turns holds head early (fun x mem => (named x mem).1) enough
      have fewer := fewer fun x mem => (named x mem).2
      rw [was, List.length_cons] at due
      have due' : (expired t now (r c)).length < turns :=
        fewer.length_le.trans_lt (Nat.lt_of_succ_lt_succ due)
      obtain ⟨s', m', fired, calls, q', armed', rest, ends, same, empty, sub, each⟩ :=
        ih holds' (by rwa [clock]) due' valid
      refine ⟨s', m', ts :: fired, (cb ts (s.takeFirst c ts) m).2 ++ calls, q', armed', ?_, ends,
        same.trans clock, empty, ?_, ?_⟩
      · rw [step, bind_ok rest]
      · rw [was]
        exact (sub.trans fewer).cons_cons ts
      · intro u mem
        by_cases named : ∃ x ∈ (cb ts (s.takeFirst c ts) m).2, x.timer = u
        · obtain ⟨x, mem, timer⟩ := named
          exact Or.inr ⟨x, List.mem_append_left _ mem, timer⟩
        rw [was] at mem
        rcases List.mem_cons.mp mem with rfl | mem
        · exact Or.inl List.mem_cons_self
        rcases each u (kept u mem fun x mem timer => named ⟨x, mem, timer⟩) with
          mem | ⟨x, mem, timer⟩
        · exact Or.inl (List.mem_cons_of_mem _ mem)
        · exact Or.inr ⟨x, List.mem_append_right _ mem, timer⟩

/-- Callbacks that name their own timer alone leave none out. -/
theorem later_timer (own : ∀ ts t m, ∀ x ∈ (cb ts t m).2, x.timer = ts) {s' : QemuTimers τ} {m' : σ}
    {fired : List τ} {later : List (TimerCall τ)}
    (ran : qemuRunTimers cb c now fuel turns s m = .ok (s', m', fired, later)) :
    ∀ x ∈ later, x.timer ∈ fired := by
  induction turns generalizing s m fired later with
  | zero => cases ran
  | succ turns ih =>
    unfold qemuRunTimers at ran
    split at ran
    · cases ran
      exact fun _ mem => absurd mem List.not_mem_nil
    · next ts head =>
      split at ran
      · cases ran
        exact fun _ mem => absurd mem List.not_mem_nil
      · obtain ⟨t, -, ran⟩ := of_bind_eq_ok ran
        obtain ⟨⟨u, m'', fired', later'⟩, rest, ran⟩ := of_bind_eq_ok ran
        cases ran
        intro x mem
        rcases List.mem_append.mp mem with mem | mem
        · exact own _ _ _ x mem ▸ List.mem_cons_self
        · exact List.mem_cons_of_mem _ (ih rest x mem)

/-- After any calls, running the timers of a clock ends where the callbacks arm its timers for
later than now alone.  It fires timers that are due in the order of their deadlines and each
of them once, it leaves none armed that is due, and it leaves none out that no callback has
stopped or moved. -/
theorem qemuRunTimers_fires (clock : τ → TimerClock) (calls : List (TimerCall τ))
    (known : ∀ x ∈ calls, x.timer ∈ made)
    (callbacks : ∀ ts ∈ made, ∀ t m, Valid m → Valid (cb ts t m).1 ∧
      ∀ x ∈ (cb ts t m).2, x.timer ∈ made ∧ x.Later clock c now)
    (enough : made.card < fuel) (valid : Valid m) :
    ∃ s s' m' fired later, calls.foldlM (call fuel) (newTimers clock) = .ok s ∧
      qemuRunTimers cb c now fuel fuel s m = .ok (s', m', fired, later) ∧
      fired.Nodup ∧ fired.Pairwise (s.expireTime · ≤ s.expireTime ·) ∧
      (∀ ts ∈ fired, clock ts = c ∧ ∃ e ≤ now, asked (fun _ => none) calls ts = some e) ∧
      (∀ ts e, clock ts = c → asked (fun _ => none) calls ts = some e → e ≤ now →
        ts ∈ fired ∨ ∃ x ∈ later, x.timer = ts) ∧
      ∀ ts, clock ts = c → s'.qemuTimerPending fuel ts = .ok true → now < s'.expireTime ts := by
  obtain ⟨s, q, done, holds, same, -⟩ := calls_ok (newTimers_armed clock) known enough
  have same : s.clock = clock := same
  have few : (expired s now (q c)).length < fuel :=
    ((List.length_filter_le _ _).trans (holds.lists.length_le c)).trans_lt enough
  obtain ⟨s', m', fired, later, q', armed', ran, ends, same', empty, sub, each⟩ :=
    qemuRunTimers_ok holds (by rwa [same]) enough few valid
  refine ⟨s, s', m', fired, later, done, ran, ?_, ?_, ?_, ?_, ?_⟩
  · exact ((holds.lists.once c).sublist List.filter_sublist).sublist sub
  · exact ((holds.lists.sorted c).sublist List.filter_sublist).sublist sub
  · intro ts mem
    rw [← same]
    exact holds.mem_expired.mp (sub.subset mem)
  · intro ts e own deadline due
    exact each ts (holds.mem_expired.mpr ⟨same.symm ▸ own, e, due, deadline⟩)
  · exact fun ts own => ends.late_of_pending empty enough (by rw [same', same, own])

/-- Timer 1 arms itself again for the time given, the other timers do nothing. -/
def rearms (e : Int) (ts : Nat) (_ : QemuTimers Nat) (m : Unit) : Unit × List (TimerCall Nat) :=
  (m, if ts = 1 then [.mod 1 e] else [])

theorem qemuRunTimers_fires_later : ∃ s s' m' fired later,
    [TimerCall.mod 1 5, .mod 2 7].foldlM (call 3) (newTimers fun _ => .virtual) = .ok s ∧
      qemuRunTimers (rearms 20) .virtual 10 3 3 s () = .ok (s', m', fired, later) ∧
      ∀ ts, s'.qemuTimerPending 3 ts = .ok true → 10 < s'.expireTime ts := by
  have enough : ({1, 2} : Finset Nat).card < 3 := by decide
  have callbacks : ∀ ts ∈ ({1, 2} : Finset Nat), ∀ t m, True → True ∧ ∀ x ∈ (rearms 20 ts t m).2,
      x.timer ∈ ({1, 2} : Finset Nat) ∧ x.Later (fun _ => .virtual) .virtual 10 := by
    refine fun ts _ _ _ _ => ⟨trivial, fun x mem => ?_⟩
    by_cases own : ts = 1
    · simp_all [rearms, TimerCall.timer, TimerCall.Later]
    · simp [rearms, own] at mem
  have known : ∀ x ∈ [TimerCall.mod 1 5, .mod 2 7], x.timer ∈ ({1, 2} : Finset Nat) := by decide
  obtain ⟨s, s', m', fired, later, done, ran, -, -, -, -, left⟩ :=
    qemuRunTimers_fires (fun _ => .virtual) _ known callbacks enough trivial
  exact ⟨s, s', m', fired, later, done, ran, fun ts => left ts rfl⟩

/-- The timer is due again after each turn, whichever timer the turn fires. -/
theorem loop_spins (holds : TimersArmed made s q armed)
    (callbacks : ∀ u ∈ made, ∀ t m, Valid m →
      Valid (cb u t m).1 ∧ ∀ x ∈ (cb u t m).2, x.timer ∈ made)
    (own : ∀ t m, Valid m → ∃ e ≤ now, asked (fun _ => none) (cb ts t m).2 ts = some e)
    (others : ∀ u t m, u ≠ ts → ∀ x ∈ (cb u t m).2, x.timer ≠ ts) (enough : made.card < fuel)
    (due : ts ∈ expired s now (q c)) (turns : Nat) (valid : Valid m) :
    qemuRunTimers cb c now fuel turns s m = .error .spin := by
  induction turns generalizing s q armed m with
  | zero => rfl
  | succ turns ih =>
    have going : ∃ u, s.activeTimers c = some u ∧ s.expireTime u ≤ now := by
      by_contra stop
      have empty := expired_nil holds fun u head => not_le.mp fun early => stop ⟨u, head, early⟩
      rw [empty] at due
      cases due
    obtain ⟨u, head, early⟩ := going
    have mine := (holds.lists.inside c u (holds.lists.head_mem head)).2
    obtain ⟨valid', named⟩ := callbacks u mine (s.takeFirst c u) m valid
    obtain ⟨l, t, r, was, step, holds', clock, -, kept⟩ :=
      turn_ok turns holds head early named enough
    suffices again : ts ∈ expired t now (r c) by
      rw [step, ih holds' again valid']
      rfl
    by_cases same : u = ts
    · subst same
      obtain ⟨e, soon, deadline⟩ := own (s.takeFirst c u) m valid
      refine holds'.mem_expired.mpr ⟨?_, e, soon, ?_⟩
      · rw [clock]
        exact (holds.mem_expired.mp due).1
      · rw [← deadline]
        exact asked_congr _ (Function.update_self ..)
    · rw [was] at due
      rcases List.mem_cons.mp due with rfl | due
      · exact absurd rfl same
      · exact kept ts due (others u _ m same)

/-- After any calls, running the timers of a clock does not end where a timer is due whose
callback arms it to be due by now again, and no other callback moves it. -/
theorem qemuRunTimers_spins (clock : τ → TimerClock) (calls : List (TimerCall τ)) {e : Int}
    (known : ∀ x ∈ calls, x.timer ∈ made)
    (callbacks : ∀ u ∈ made, ∀ t m, Valid m →
      Valid (cb u t m).1 ∧ ∀ x ∈ (cb u t m).2, x.timer ∈ made)
    (own : ∀ t m, Valid m → ∃ e ≤ now, asked (fun _ => none) (cb ts t m).2 ts = some e)
    (others : ∀ u t m, u ≠ ts → ∀ x ∈ (cb u t m).2, x.timer ≠ ts)
    (due : clock ts = c ∧ asked (fun _ => none) calls ts = some e ∧ e ≤ now)
    (enough : made.card < fuel) :
    ∃ s, calls.foldlM (call fuel) (newTimers clock) = .ok s ∧
      ∀ turns m, Valid m → qemuRunTimers cb c now fuel turns s m = .error .spin := by
  obtain ⟨s, q, done, holds, same, -⟩ := calls_ok (newTimers_armed clock) known enough
  obtain ⟨on, deadline, early⟩ := due
  have mem : ts ∈ expired s now (q c) :=
    holds.mem_expired.mpr ⟨(congrFun same ts).trans on, e, early, deadline⟩
  exact ⟨s, done, fun turns m => loop_spins holds callbacks own others enough mem turns⟩

theorem qemuRunTimers_spins_same :
    ∃ s, [TimerCall.mod 1 5].foldlM (call 2) (newTimers fun _ => .virtual) = .ok s ∧
      ∀ turns, qemuRunTimers (rearms 10) .virtual 10 2 turns s () = .error .spin := by
  have enough : ({1} : Finset Nat).card < 2 := by decide
  have callbacks : ∀ ts ∈ ({1} : Finset Nat), ∀ t m, True → True ∧ ∀ x ∈ (rearms 10 ts t m).2,
      x.timer ∈ ({1} : Finset Nat) := by
    refine fun ts _ _ _ _ => ⟨trivial, fun x mem => ?_⟩
    by_cases own : ts = 1
    · simp_all [rearms, TimerCall.timer]
    · simp [rearms, own] at mem
  have own : ∀ t m, True → ∃ e ≤ 10, asked (fun _ => none) (rearms 10 1 t m).2 1 = some e :=
    fun _ _ _ => ⟨10, le_rfl, rfl⟩
  have others : ∀ u t m, u ≠ 1 → ∀ x ∈ (rearms 10 u t m).2, x.timer ≠ 1 := by
    intro u _ _ other x mem
    simp [rearms, other] at mem
  have due : TimerClock.virtual = .virtual ∧
      asked (fun _ => none) [.mod 1 5] 1 = some 5 ∧ (5 : Int) ≤ 10 := by decide
  obtain ⟨s, done, spins⟩ := qemuRunTimers_spins (fun _ => .virtual) [.mod 1 5] (by decide)
    callbacks own others due enough
  exact ⟨s, done, fun turns => spins turns () trivial⟩

end Run

end VirtualNoah
