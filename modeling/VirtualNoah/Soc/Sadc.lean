import Mathlib.Data.List.Chain
import Mathlib.Data.List.Induction
import VirtualNoah.Lib.StepRun
import VirtualNoah.Soc.PhysMem

/-!
# The touch screen

The SADC takes mouse events as pen events.  It raises a status event when the
mask of the buttons goes from nothing to the left button or back, and stores the
mask as the state of the pen; the guest driver toggles its own idea of the pen
at each status event.  Any other mask, and an event on the border of the screen,
makes the three disagree.
-/

namespace VirtualNoah

open StepRun

def penDown : BitVec 16 := 1
def penUp : BitVec 16 := 0

structure Jz4740Sadc where
  irq : Bool
  adena : BitVec 32
  adcfg : BitVec 32
  adctrl : BitVec 32
  adstate : BitVec 32
  adsame : BitVec 32
  adwait : BitVec 32
  adtch : BitVec 32
  adbdat : BitVec 32
  adsdat : BitVec 32
  tchen : BitVec 8
  exIn : BitVec 8
  xyz : BitVec 8
  snum : BitVec 8
  x : BitVec 16
  y : BitVec 16
  penState : BitVec 16
  readIndex : BitVec 8

def jz4740TouchscreenInterrupt (s : Jz4740Sadc) : Jz4740Sadc :=
  if s.tchen = 0#8 then s
  else if s.adctrl &&& s.adstate ≠ 0#32 then { s with irq := true }
  else s

/-- A status event of the pen. -/
inductive PenEdge where
  | down | up
  deriving DecidableEq

/-- The bits of ADSTATE that a status event sets. -/
def PenEdge.status : PenEdge → BitVec 32
  | .down => 0x14
  | .up => 0xc

def penEdge (s : Jz4740Sadc) (buttons : BitVec 32) : Option PenEdge :=
  if s.penState = penUp ∧ buttons = 1#32 then some .down
  else if s.penState = penDown ∧ buttons = 0#32 then some .up
  else none

/-- `x > 0 && y > 0 && x < 32767 && y < 32767` -/
def InScreen (x y : Int) : Prop := 0 < x ∧ 0 < y ∧ x < 32767 ∧ y < 32767

instance (x y : Int) : Decidable (InScreen x y) := inferInstanceAs (Decidable (_ ∧ _))

/-- `(x*4096)/0x7FFF` -/
def touchScale (x : Int) : BitVec 16 := BitVec.ofInt 16 ((x * 4096).tdiv 0x7fff)

/-- The mouse handler, with the status event it has raised. -/
def jz4740TouchscreenEvent (s : Jz4740Sadc) (x y : Int) (buttons : BitVec 32) :
    Jz4740Sadc × Option PenEdge :=
  if InScreen x y then
    if s.tchen = 0#8 then (s, none)
    else
      let edge := penEdge s buttons
      let s := { s with x := touchScale x, y := touchScale y }
      let s := match edge with
        | some e => jz4740TouchscreenInterrupt { s with adstate := s.adstate ||| e.status }
        | none => s
      ({ s with penState := buttons.setWidth 16 }, edge)
  else (s, none)

/-! ## The registers -/

def jz4740SadcRead8 (s : Jz4740Sadc) (addr : Nat) : Except Fault (BitVec 32) :=
  match addr with
  | 0x0 => .ok s.adena
  | 0x8 => .ok s.adctrl
  | 0xc => .ok s.adstate
  | _ => .error .cpuAbort

def jz4740SdacRead16 (s : Jz4740Sadc) (addr : Nat) : Except Fault (BitVec 32) :=
  match addr with
  | 0x10 => .ok s.adsame
  | 0x14 => .ok s.adwait
  | 0x1c => .ok s.adbdat
  | 0x20 => .ok s.adsdat
  | _ => .error .cpuAbort

/-- Reads of ADTCH deliver the position and a fixed pressure in turn. -/
def jz4740SdacRead32 (s : Jz4740Sadc) (addr : Nat) : Except Fault (Jz4740Sadc × BitVec 32) :=
  match addr with
  | 0x4 => .ok (s, s.adcfg)
  | 0x18 =>
    if s.readIndex = 0#8 then
      .ok ({ s with readIndex := s.readIndex + 1 },
        (s.x.setWidth 32 &&& 0x7fff#32) ||| ((s.y.setWidth 32 &&& 0x7ffff#32) <<< 16))
    else .ok ({ s with readIndex := 0 }, 0x3fff)
  | _ => .error .cpuAbort

def jz4740SadcWrite8 (s : Jz4740Sadc) (addr : Nat) (value : BitVec 32) :
    Except Fault Jz4740Sadc :=
  match addr with
  | 0x0 => .ok { s with adena := value &&& 0x7#32, tchen := (value &&& 0x4#32).setWidth 8 }
  | 0x8 => .ok { s with adctrl := value &&& 0x1f#32 }
  | 0xc => .ok { s with adstate := s.adstate &&& ~~~(value &&& 0x1f#32) }
  | _ => .error .cpuAbort

/-- ADBDAT and ADSDAT fall through to the abort. -/
def jz4740SadcWrite16 (s : Jz4740Sadc) (addr : Nat) (value : BitVec 32) :
    Except Fault Jz4740Sadc :=
  match addr with
  | 0x10 => .ok { s with adsame := value &&& 0xffff#32 }
  | 0x14 => .ok { s with adsdat := value &&& 0xffff#32 }
  | _ => .error .cpuAbort

/-- ADTCH is `case 18`, not 0x18. -/
def jz4740SadcWrite32 (s : Jz4740Sadc) (addr : Nat) (value : BitVec 32) :
    Except Fault Jz4740Sadc :=
  match addr with
  | 0x4 => .ok { s with
      adcfg := value &&& 0xc007ffff#32
      exIn := ((value &&& 0x40000000#32) >>> 30).setWidth 8
      xyz := ((value &&& 0x6fff#32) >>> 13).setWidth 8
      snum := (((value &&& 0x1cff#32) >>> 10) + 1#32).setWidth 8 }
  | 18 => .ok { s with adtch := value &&& 0x8fff8fff#32 }
  | _ => .error .cpuAbort

/-- `jz4740_sadc_init` and `jz4740_sadc_reset` -/
def jz4740SadcInit : Jz4740Sadc where
  irq := false
  adena := 0
  adcfg := 0x0002002c
  adctrl := 0
  adstate := 0
  adsame := 0
  adwait := 0
  adtch := 0
  adbdat := 0
  adsdat := 0
  tchen := 0
  exIn := 0
  xyz := 0
  snum := 1
  x := 0
  y := 0
  penState := 0
  readIndex := 0

/-- A mouse event, or an access of the guest to a register. -/
inductive SadcInput where
  | mouse (x y : Int) (buttons : BitVec 32)
  | read (w : Width) (addr : Nat)
  | write (w : Width) (addr : Nat) (value : BitVec 32)

def sadcRead (s : Jz4740Sadc) (addr : Nat) : Width → Except Fault (Jz4740Sadc × BitVec 32)
  | .byte => (jz4740SadcRead8 s addr).map (s, ·)
  | .half => (jz4740SdacRead16 s addr).map (s, ·)
  | .word => jz4740SdacRead32 s addr

def sadcWrite (s : Jz4740Sadc) (addr : Nat) (value : BitVec 32) :
    Width → Except Fault Jz4740Sadc
  | .byte => jz4740SadcWrite8 s addr value
  | .half => jz4740SadcWrite16 s addr value
  | .word => jz4740SadcWrite32 s addr value

/-! ## The pen -/

/-- `pendown_interrupt` of the guest driver, as far as `pen_is_down` goes. -/
def pendownInterrupt (penIsDown : Bool) : Bool := if penIsDown then false else true

/-- What the driver takes the pen for after some status events. -/
def penIsDown (raised : List PenEdge) : Bool :=
  raised.foldl (fun down _ => pendownInterrupt down) false

/-- Neighbours differ, and the first one is a pen-down. -/
def Alternates (raised : List PenEdge) : Prop := List.IsChain (· ≠ ·) (.up :: raised)

/-- The left button of a mask. -/
def leftButton (buttons : BitVec 32) : Bool := buttons.getLsbD 0

/-- A run and what is observed of it: the left button at the last event delivered
while the touch screen is enabled, and the status events raised so far. -/
structure PenWatch where
  sadc : Jz4740Sadc
  left : Bool
  raised : List PenEdge

def penStep (w : PenWatch) : SadcInput → Except Fault (PenWatch × Option (BitVec 32))
  | .mouse x y buttons =>
    let (s, edge) := jz4740TouchscreenEvent w.sadc x y buttons
    let left := if w.sadc.tchen = 0#8 then w.left else leftButton buttons
    .ok (⟨s, left, w.raised ++ edge.toList⟩, none)
  | .read width addr =>
    (sadcRead w.sadc addr width).map fun (s, v) => ({ w with sadc := s }, some v)
  | .write width addr value =>
    (sadcWrite w.sadc addr value width).map fun s => ({ w with sadc := s }, none)

def penWatchInit : PenWatch := ⟨jz4740SadcInit, false, []⟩

/-- The pen is down exactly when the left button is, the status events alternate,
and the guest driver has it right. -/
structure PenFollows (w : PenWatch) : Prop where
  state : w.sadc.penState = penDown ↔ w.left = true
  alternates : Alternates w.raised
  guest : penIsDown w.raised = w.left

/-- An event the touch screen can follow.  In the screen: the left button is pressed
alone, not after other buttons, or it is not pressed, and then no other button follows
a pen that is down.  On the border: the left button is as the pen is. -/
def Followed (s : Jz4740Sadc) (x y : Int) (buttons : BitVec 32) : Prop :=
  if InScreen x y then
    if leftButton buttons then
      buttons.setWidth 16 = penDown ∧ (s.penState = penUp → buttons = 1#32) ∧
        (s.penState = penUp ∨ s.penState = penDown)
    else s.penState = penDown → buttons = 0#32
  else leftButton buttons = true ↔ s.penState = penDown

/-- Every event delivered while the touch screen is enabled can be followed. -/
def PenGuard (w : PenWatch) (input : SadcInput) : Prop :=
  ∀ x y buttons, input = .mouse x y buttons → w.sadc.tchen ≠ 0#8 →
    Followed w.sadc x y buttons

section Edges

variable {raised : List PenEdge} {e : PenEdge}

theorem penIsDown_append : penIsDown (raised ++ [e]) = !penIsDown raised := by
  rw [penIsDown, List.foldl_append, ← penIsDown]
  cases penIsDown raised <;> rfl

theorem alternates_append : Alternates (raised ++ [e]) ↔
    Alternates raised ∧ (PenEdge.up :: raised).getLast (List.cons_ne_nil _ _) ≠ e := by
  rw [Alternates, ← List.cons_append, List.isChain_append]
  simp only [List.isChain_singleton, true_and, List.getLast?_eq_some_getLast
    (List.cons_ne_nil PenEdge.up raised), Option.mem_def, Option.some.injEq, List.head?_cons,
    forall_eq']
  rfl

/-- The last of alternating events is what the driver takes the pen for. -/
theorem last_eq (alternates : Alternates raised) :
    (PenEdge.up :: raised).getLast (List.cons_ne_nil _ _) =
      if penIsDown raised then .down else .up := by
  induction raised using List.reverseRecOn with
  | nil => rfl
  | append_singleton raised e ih =>
    obtain ⟨before, differs⟩ := alternates_append.mp alternates
    rw [ih before] at differs
    simp only [← List.cons_append, List.getLast_append_singleton, penIsDown_append]
    cases down : penIsDown raised with
    | true =>
      rw [down, if_pos rfl] at differs
      cases e with
      | down => exact absurd rfl differs
      | up => rfl
    | false =>
      rw [down, if_neg Bool.false_ne_true] at differs
      cases e with
      | down => rfl
      | up => exact absurd rfl differs

end Edges

section Step

variable {w w' : PenWatch} {s : Jz4740Sadc} {x y : Int} {buttons : BitVec 32} {input : SadcInput}
  {out : Option (BitVec 32)}

/-- A mask that is one or nothing says so of the left button. -/
theorem leftButton_of_setWidth (one : buttons.setWidth 16 = penDown) :
    leftButton buttons = true := by
  have bit := congrArg (·.getLsbD 0) one
  simp only [BitVec.getLsbD_setWidth] at bit
  exact bit

theorem penEdge_cases (s : Jz4740Sadc) (buttons : BitVec 32) :
    s.penState = penUp ∧ buttons = 1#32 ∧ penEdge s buttons = some .down ∨
      s.penState = penDown ∧ buttons = 0#32 ∧ penEdge s buttons = some .up ∨
      ¬ (s.penState = penUp ∧ buttons = 1#32) ∧ ¬ (s.penState = penDown ∧ buttons = 0#32) ∧
        penEdge s buttons = none := by
  unfold penEdge
  split
  · next down => exact Or.inl ⟨down.1, down.2, rfl⟩
  · next notDown =>
    split
    · next up => exact Or.inr (Or.inl ⟨up.1, up.2, rfl⟩)
    · next notUp => exact Or.inr (Or.inr ⟨notDown, notUp, rfl⟩)

theorem touchscreenEvent_disabled (x y : Int) (buttons : BitVec 32) (disabled : s.tchen = 0#8) :
    jz4740TouchscreenEvent s x y buttons = (s, none) := by
  unfold jz4740TouchscreenEvent
  by_cases screen : InScreen x y
  · rw [if_pos screen, if_pos disabled]
  · rw [if_neg screen]

/-- What an event delivered to an enabled touch screen does to the pen. -/
theorem touchscreenEvent_eq (x y : Int) (buttons : BitVec 32) (enabled : s.tchen ≠ 0#8) :
    (jz4740TouchscreenEvent s x y buttons).1.penState =
        (if InScreen x y then buttons.setWidth 16 else s.penState) ∧
      (jz4740TouchscreenEvent s x y buttons).2 =
        (if InScreen x y then penEdge s buttons else none) := by
  unfold jz4740TouchscreenEvent
  by_cases screen : InScreen x y
  · rw [if_pos screen, if_pos screen, if_pos screen, if_neg enabled]
    exact ⟨rfl, rfl⟩
  · rw [if_neg screen, if_neg screen, if_neg screen]
    exact ⟨rfl, rfl⟩

/-- An edge that turns the pen over. -/
theorem PenFollows.turn (follows : PenFollows w) {e : PenEdge} {left : Bool}
    (state : s.penState = penDown ↔ left = true) (turned : left = !w.left)
    (edge : e = if w.left then .up else .down) : PenFollows ⟨s, left, w.raised ++ [e]⟩ := by
  obtain ⟨-, alternates, guest⟩ := follows
  have last := last_eq alternates
  rw [guest] at last
  refine ⟨state, alternates_append.mpr ⟨alternates, ?_⟩, ?_⟩
  · rw [last, edge]
    cases w.left <;> exact nofun
  · exact penIsDown_append.trans ((congrArg not guest).trans turned.symm)

/-- An event in the screen that turns nothing over. -/
theorem PenFollows.silent_iff (follows : PenFollows w) (screen : InScreen x y)
    (pen : s.penState = buttons.setWidth 16)
    (noDown : ¬ (w.sadc.penState = penUp ∧ buttons = 1#32))
    (noUp : ¬ (w.sadc.penState = penDown ∧ buttons = 0#32)) :
    PenFollows ⟨s, leftButton buttons, w.raised⟩ ↔ Followed w.sadc x y buttons := by
  obtain ⟨state, alternates, guest⟩ := follows
  rw [Followed, if_pos screen]
  cases left : leftButton buttons with
  | true =>
    rw [if_pos rfl]
    constructor
    · intro after
      have down : w.sadc.penState = penDown := state.mpr (guest.symm.trans after.guest)
      refine ⟨pen.symm.trans (after.state.mpr rfl), fun up => ?_, Or.inr down⟩
      cases up.symm.trans down
    · rintro ⟨one, alone, up | down⟩
      · exact absurd ⟨up, alone up⟩ noDown
      · exact ⟨iff_of_true (pen.trans one) rfl, alternates, guest.trans (state.mp down)⟩
  | false =>
    rw [if_neg Bool.false_ne_true]
    have other : buttons.setWidth 16 ≠ penDown := fun one => by
      cases left.symm.trans (leftButton_of_setWidth one)
    constructor
    · intro after down
      cases (guest.trans (state.mp down)).symm.trans after.guest
    · intro released
      refine ⟨iff_of_false (pen ▸ other) Bool.false_ne_true, alternates, guest.trans ?_⟩
      refine Bool.eq_false_iff.mpr fun isLeft => noUp ?_
      exact ⟨state.mpr isLeft, released (state.mpr isLeft)⟩

/-- An event on the border, which is dropped. -/
theorem PenFollows.dropped_iff (follows : PenFollows w) (border : ¬ InScreen x y)
    (pen : s.penState = w.sadc.penState) :
    PenFollows ⟨s, leftButton buttons, w.raised⟩ ↔ Followed w.sadc x y buttons := by
  obtain ⟨state, alternates, guest⟩ := follows
  rw [Followed, if_neg border]
  constructor
  · intro after
    rw [← after.state, pen]
  · intro same
    refine ⟨pen ▸ same.symm, alternates, guest.trans ?_⟩
    exact Bool.eq_iff_iff.mpr (state.symm.trans same.symm)

/-- From a state in which all agree, they agree after an event exactly when it can be
followed. -/
theorem penFollows_event_iff (follows : PenFollows w) (enabled : w.sadc.tchen ≠ 0#8) :
    PenFollows ⟨(jz4740TouchscreenEvent w.sadc x y buttons).1, leftButton buttons,
      w.raised ++ (jz4740TouchscreenEvent w.sadc x y buttons).2.toList⟩ ↔
    Followed w.sadc x y buttons := by
  obtain ⟨pen, edge⟩ := touchscreenEvent_eq x y buttons enabled
  rw [edge]
  by_cases screen : InScreen x y
  · rw [if_pos screen] at pen ⊢
    rcases penEdge_cases w.sadc buttons with ⟨up, rfl, raised⟩ | ⟨down, rfl, raised⟩ |
      ⟨noDown, noUp, silent⟩
    · have left : w.left = false := by
        refine Bool.eq_false_iff.mpr fun left => ?_
        cases up.symm.trans (follows.state.mpr left)
      rw [raised, Followed, if_pos screen]
      refine iff_of_true (follows.turn ?_ ?_ ?_) ⟨rfl, fun _ => rfl, Or.inl up⟩
      · exact iff_of_true pen rfl
      · rw [left]
        rfl
      · rw [left]
        rfl
    · have left : w.left = true := follows.state.mp down
      rw [raised, Followed, if_pos screen]
      refine iff_of_true (follows.turn ?_ ?_ ?_) fun _ => rfl
      · refine iff_of_false (fun isDown => ?_) Bool.false_ne_true
        cases pen.symm.trans isDown
      · rw [left]
        rfl
      · rw [left]
        rfl
    · rw [silent, Option.toList_none, List.append_nil]
      exact follows.silent_iff screen pen noDown noUp
  · rw [if_neg screen] at pen ⊢
    rw [Option.toList_none, List.append_nil]
    exact follows.dropped_iff screen pen

theorem sadcRead_penState {v : BitVec 32} {t : Jz4740Sadc} {addr : Nat} {width : Width}
    (done : sadcRead s addr width = .ok (t, v)) : t.penState = s.penState := by
  cases width with
  | byte =>
    obtain ⟨v', -, same⟩ := of_map_eq_ok done
    cases same
    rfl
  | half =>
    obtain ⟨v', -, same⟩ := of_map_eq_ok done
    cases same
    rfl
  | word =>
    simp only [sadcRead, jz4740SdacRead32] at done
    split at done
    · cases done
      rfl
    · split at done
      · cases done
        rfl
      · cases done
        rfl
    · cases done

theorem sadcWrite_penState {value : BitVec 32} {t : Jz4740Sadc} {addr : Nat} {width : Width}
    (done : sadcWrite s addr value width = .ok t) : t.penState = s.penState := by
  cases width with
  | byte =>
    simp only [sadcWrite, jz4740SadcWrite8] at done
    split at done <;> cases done <;> rfl
  | half =>
    simp only [sadcWrite, jz4740SadcWrite16] at done
    split at done <;> cases done <;> rfl
  | word =>
    simp only [sadcWrite, jz4740SadcWrite32] at done
    split at done <;> cases done <;> rfl

theorem penStep_enabled (x y : Int) (buttons : BitVec 32) (enabled : w.sadc.tchen ≠ 0#8) :
    penStep w (.mouse x y buttons) =
      .ok (⟨(jz4740TouchscreenEvent w.sadc x y buttons).1, leftButton buttons,
        w.raised ++ (jz4740TouchscreenEvent w.sadc x y buttons).2.toList⟩, none) := by
  simp only [penStep, if_neg enabled]

theorem penFollows_keep (follows : PenFollows w) (guarded : PenGuard w input)
    (done : penStep w input = .ok (w', out)) : PenFollows w' := by
  obtain ⟨state, alternates, guest⟩ := follows
  cases input with
  | mouse x y buttons =>
    by_cases disabled : w.sadc.tchen = 0#8
    · simp only [penStep, touchscreenEvent_disabled x y buttons disabled, if_pos disabled,
        Option.toList_none, List.append_nil] at done
      cases done
      exact ⟨state, alternates, guest⟩
    · rw [penStep_enabled x y buttons disabled] at done
      cases done
      exact (penFollows_event_iff ⟨state, alternates, guest⟩ disabled).mpr
        (guarded x y buttons rfl disabled)
  | read width addr =>
    obtain ⟨⟨t, v⟩, read, same⟩ := of_map_eq_ok done
    cases same
    exact ⟨sadcRead_penState read ▸ state, alternates, guest⟩
  | write width addr value =>
    obtain ⟨t, written, same⟩ := of_map_eq_ok done
    cases same
    exact ⟨sadcWrite_penState written ▸ state, alternates, guest⟩

theorem penFollows_leave (follows : PenFollows w) (unguarded : ¬ PenGuard w input) :
    ∃ w' out, penStep w input = .ok (w', out) ∧ ¬ PenFollows w' := by
  simp only [PenGuard, not_forall] at unguarded
  obtain ⟨x, y, buttons, rfl, enabled, missed⟩ := unguarded
  refine ⟨_, none, penStep_enabled x y buttons enabled, fun after => missed ?_⟩
  exact (penFollows_event_iff follows enabled).mp after

end Step

/-- From power-on, over every sequence of mouse events and register accesses: after each
event delivered while the touch screen is enabled the state of the pen, the status events
and the guest driver follow the left button, exactly when each of these events can be
followed. -/
theorem pen_follows_button_iff (inputs : List SadcInput) :
    Always penStep PenFollows penWatchInit inputs ↔ Along penStep PenGuard penWatchInit inputs :=
  always_iff_along PenFollows penFollows_keep penFollows_leave
    ⟨iff_of_false nofun Bool.false_ne_true, List.isChain_singleton _, rfl⟩

/-- The pen is put down, the right button pressed with it, and both are released. -/
def twoButtons : List SadcInput :=
  [.write .byte 0x0 0x4, .mouse 100 100 0x1, .mouse 100 100 0x3, .mouse 100 100 0x0,
    .mouse 100 100 0x1]

/-- The release is lost, so the second press is the second pen-down in a row, and the
driver takes the pen for up. -/
theorem release_of_two_buttons_lost :
    (∃ w outs, run penStep penWatchInit twoButtons = .ok (w, outs) ∧
      w.raised = [.down, .down] ∧ w.left = true ∧ penIsDown w.raised = false) ∧
    ¬ Always penStep PenFollows penWatchInit twoButtons := by
  have ends : ∃ w outs, run penStep penWatchInit twoButtons = .ok (w, outs) ∧
      w.raised = [.down, .down] ∧ w.left = true ∧ penIsDown w.raised = false :=
    ⟨_, _, rfl, rfl, rfl, rfl⟩
  refine ⟨ends, fun always => ?_⟩
  obtain ⟨w, outs, completed, -, left, guest⟩ := ends
  have agrees := (always.last completed).guest
  rw [guest, left] at agrees
  cases agrees

end VirtualNoah
