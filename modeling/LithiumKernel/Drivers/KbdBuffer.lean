import Mathlib.Algebra.Group.Nat.Defs
import LithiumKernel.Drivers.Ps2kbd
import LithiumKernel.Lib.Ring

/-!
# The keyboard buffer (drivers/char/ps2kbd.c)

`buf_push` puts a decoded character into a ring buffer, `kbd_trygetchar` takes the oldest one out.
Both the interrupt and `kbd_trygetchar` first drain the controller through `kbd_poll`, so a step of
either can push several characters. The indices are `uint32_t` in the source; they stay below 256,
so nothing depends on their width. A step is one call: an interrupt between the reads and writes of
`kbd_trygetchar` is not modelled.
-/
namespace LithiumKernel.Drivers

open LithiumKernel.Lib

/-! ## The source -/

def kbdBufSize : Nat := 256

abbrev KbdBuf := RingBuffer Char

def bufPush (c : Char) (r : KbdBuf) : KbdBuf :=
  let next := (r.tail + 1) &&& (kbdBufSize - 1)
  if next ≠ r.head then
    { r with buf := Function.update r.buf r.tail c, tail := next }
  else r

def kbdAvailable (r : KbdBuf) : Bool := r.head ≠ r.tail

/-- A byte in the output buffer of the controller; the status tells those of the mouse apart. -/
structure PortByte where
  aux : Bool
  data : Scancode

structure Keyboard where
  decoder : KbdState
  ring : KbdBuf
  /-- What `inb(KBD_DATA)` will deliver, as long as the status says that there is something. -/
  port : List PortByte

def handleScancode (scancode : Scancode) (k : Keyboard) : Keyboard :=
  match kbdDecodeScancode scancode k.decoder with
  | (some c, decoder) =>
    if c ≠ nul then { k with decoder := decoder, ring := bufPush c k.ring }
    else { k with decoder := decoder }
  | (none, decoder) => { k with decoder := decoder }

def kbdPollLoop : Nat → Keyboard → Keyboard
  | 0, k => k
  | i + 1, k =>
    match k.port with
    | [] => k
    | byte :: port =>
      let k := { k with port := port }
      kbdPollLoop i (if byte.aux then k else handleScancode byte.data k)

def kbdPoll (k : Keyboard) : Keyboard := kbdPollLoop 16 k

def kbdTrygetchar (k : Keyboard) : Char × Keyboard :=
  let k := kbdPoll k
  if ¬ kbdAvailable k.ring then (nul, k)
  else
    let c := k.ring.buf k.ring.head
    (c, { k with ring := { k.ring with head := (k.ring.head + 1) &&& (kbdBufSize - 1) } })

/-! ## Runs -/

/-- A step of the keyboard: a byte arrives at the controller, a character is pushed, the interrupt
drains the controller, a reader asks for a character. -/
inductive KbdStep where
  | arrive (byte : PortByte)
  | push (c : Char)
  | irq
  | tryget

def Keyboard.step : KbdStep → Keyboard → Keyboard
  | .arrive byte, k => { k with port := k.port ++ [byte] }
  | .push c, k => { k with ring := bufPush c k.ring }
  | .irq, k => kbdPoll k
  | .tryget, k => (kbdTrygetchar k).2

def Keyboard.run (steps : List KbdStep) (k : Keyboard) : Keyboard :=
  steps.foldl (fun k step => k.step step) k

/-- The arguments of the calls of `buf_push` that `kbd_poll` makes. -/
def pollPushes : Nat → Keyboard → List Char
  | 0, _ => []
  | i + 1, k =>
    match k.port with
    | [] => []
    | byte :: port =>
      let k := { k with port := port }
      if byte.aux then pollPushes i k
      else ((kbdDecodeScancode byte.data k.decoder).1.toList.filter (· ≠ nul)) ++
        pollPushes i (handleScancode byte.data k)

def Keyboard.pushes : KbdStep → Keyboard → List Char
  | .arrive _, _ => []
  | .push c, _ => [c]
  | .irq, k | .tryget, k => pollPushes 16 k

/-- The pushed characters that went into the buffer: the tail has moved. -/
def accepted : List Char → KbdBuf → List Char
  | [], _ => []
  | c :: cs, r =>
    if (bufPush c r).tail = r.tail then accepted cs (bufPush c r)
    else c :: accepted cs (bufPush c r)

/-- What a call of `kbd_trygetchar` that finds a character returns. -/
def Keyboard.taken : KbdStep → Keyboard → List Char
  | .tryget, k => if kbdAvailable (kbdPoll k).ring then [(kbdTrygetchar k).1] else []
  | _, _ => []

def Keyboard.acceptedIn : List KbdStep → Keyboard → List Char
  | [], _ => []
  | step :: steps, k => accepted (k.pushes step) k.ring ++ (k.step step).acceptedIn steps

def Keyboard.returnedIn : List KbdStep → Keyboard → List Char
  | [], _ => []
  | step :: steps, k => k.taken step ++ (k.step step).returnedIn steps

/-! ## The queue -/

variable {r : KbdBuf} {k : Keyboard}

def pending (r : KbdBuf) : List Char := RingBuffer.pending kbdBufSize r

def BufOk (r : KbdBuf) : Prop := RingBuffer.Ok kbdBufSize r

/-- The mask is the step around the ring. -/
theorem mask_eq_wrap {i : Nat} (lt : i < kbdBufSize) :
    (i + 1) &&& (kbdBufSize - 1) = wrap kbdBufSize (i + 1) := by
  have mod : (i + 1) &&& (2 ^ 8 - 1) = (i + 1) % 2 ^ 8 := Nat.and_two_pow_sub_one_eq_mod _ 8
  unfold kbdBufSize at lt
  change (i + 1) &&& (2 ^ 8 - 1) = wrap 256 (i + 1)
  rw [mod]
  unfold wrap
  split <;> omega

theorem bufPush_full (ok : BufOk r) (full : wrap kbdBufSize (r.tail + 1) = r.head) (c : Char) :
    bufPush c r = r := by
  unfold bufPush
  rw [mask_eq_wrap ok.tail]
  exact if_neg (not_not.mpr full)

theorem bufPush_room (ok : BufOk r) (room : wrap kbdBufSize (r.tail + 1) ≠ r.head) (c : Char) :
    bufPush c r = RingBuffer.store kbdBufSize c r := by
  unfold bufPush
  rw [mask_eq_wrap ok.tail]
  exact if_pos room

theorem store_tail_ne (ok : BufOk r) (c : Char) : (RingBuffer.store kbdBufSize c r).tail ≠ r.tail := by
  have lt : r.tail < 256 := ok.tail
  change wrap 256 (r.tail + 1) ≠ r.tail
  unfold wrap
  split <;> omega

theorem full_iff_length (ok : BufOk r) :
    wrap kbdBufSize (r.tail + 1) = r.head ↔ (pending r).length = kbdBufSize - 1 := by
  rw [RingBuffer.full_iff ok, pending, RingBuffer.length_pending]

/-- A push is dropped exactly if 255 characters are pending. -/
theorem bufPush_dropped_iff (ok : BufOk r) (c : Char) :
    bufPush c r = r ↔ (pending r).length = kbdBufSize - 1 := by
  rw [← full_iff_length ok]
  constructor
  · intro same
    by_contra room
    rw [bufPush_room ok room] at same
    exact store_tail_ne ok c (congrArg RingBuffer.tail same)
  · intro full
    exact bufPush_full ok full c

theorem bufPush_ok (ok : BufOk r) (c : Char) : BufOk (bufPush c r) := by
  by_cases full : wrap kbdBufSize (r.tail + 1) = r.head
  · rw [bufPush_full ok full]
    exact ok
  · rw [bufPush_room ok full]
    exact RingBuffer.Ok.store ok c

theorem pending_bufPush (ok : BufOk r) (c : Char) :
    pending (bufPush c r) = pending r ++ accepted [c] r := by
  by_cases full : wrap kbdBufSize (r.tail + 1) = r.head
  · have same := bufPush_full ok full c
    rw [accepted, if_pos (congrArg RingBuffer.tail same), same, accepted, List.append_nil]
  · have stored := bufPush_room ok full c
    have moved : (bufPush c r).tail ≠ r.tail := by
      rw [stored]
      exact store_tail_ne ok c
    rw [accepted, if_neg moved, accepted, stored]
    exact RingBuffer.pending_store ok full c

def pushAll (cs : List Char) (r : KbdBuf) : KbdBuf := cs.foldl (fun r c => bufPush c r) r

theorem accepted_cons (c : Char) (cs : List Char) (r : KbdBuf) :
    accepted (c :: cs) r = accepted [c] r ++ accepted cs (bufPush c r) := by
  rw [accepted, accepted]
  split <;> rfl

theorem pushAll_pending (ok : BufOk r) (cs : List Char) :
    BufOk (pushAll cs r) ∧ pending (pushAll cs r) = pending r ++ accepted cs r := by
  induction cs generalizing r with
  | nil => exact ⟨ok, (List.append_nil _).symm⟩
  | cons c cs ih =>
    obtain ⟨ok', pushed⟩ := ih (bufPush_ok ok c)
    refine ⟨ok', ?_⟩
    rw [accepted_cons, ← List.append_assoc, ← pending_bufPush ok c]
    exact pushed

/-! ## The steps -/

theorem handleScancode_ring (scancode : Scancode) (k : Keyboard) :
    (handleScancode scancode k).ring =
      pushAll ((kbdDecodeScancode scancode k.decoder).1.toList.filter (· ≠ nul)) k.ring := by
  unfold handleScancode
  obtain ⟨c, decoder⟩ := kbdDecodeScancode scancode k.decoder
  cases c with
  | none => rfl
  | some c =>
    by_cases zero : c = nul
    · simp [zero, pushAll]
    · simp [zero, pushAll]

theorem kbdPollLoop_ring (i : Nat) (k : Keyboard) :
    (kbdPollLoop i k).ring = pushAll (pollPushes i k) k.ring := by
  induction i generalizing k with
  | zero => rfl
  | succ i ih =>
    rw [kbdPollLoop, pollPushes]
    split
    · rfl
    · rename_i byte port waiting
      cases mouse : byte.aux with
      | true => exact ih _
      | false =>
        dsimp only
        rw [if_neg Bool.false_ne_true, if_neg Bool.false_ne_true, ih, handleScancode_ring]
        exact (List.foldl_append ..).symm

/-- What a step accepts goes behind the pending characters, what it returns comes off the front. -/
theorem step_fifo (ok : BufOk k.ring) (step : KbdStep) :
    BufOk (k.step step).ring ∧
      pending k.ring ++ accepted (k.pushes step) k.ring = k.taken step ++ pending (k.step step).ring := by
  have polled := pushAll_pending ok (pollPushes 16 k)
  rw [← kbdPollLoop_ring] at polled
  cases step with
  | arrive byte => exact ⟨ok, List.append_nil _⟩
  | push c => exact ⟨bufPush_ok ok c, (pending_bufPush ok c).symm⟩
  | irq => exact ⟨polled.1, polled.2.symm⟩
  | tryget =>
    obtain ⟨ok', queue⟩ := polled
    change BufOk (kbdTrygetchar k).2.ring ∧ pending k.ring ++ accepted (pollPushes 16 k) k.ring =
      (if kbdAvailable (kbdPoll k).ring then [(kbdTrygetchar k).1] else []) ++
        pending (kbdTrygetchar k).2.ring
    rw [← queue]
    unfold kbdTrygetchar
    change BufOk (kbdPoll k).ring at ok'
    change _ ∧ pending (kbdPoll k).ring = _
    generalize kbdPoll k = k' at ok'
    by_cases some_ : k'.ring.head = k'.ring.tail
    · have none_ : kbdAvailable k'.ring = false := by simp [kbdAvailable, some_]
      simp only [none_]
      exact ⟨ok', rfl⟩
    · have available : kbdAvailable k'.ring = true := by simp [kbdAvailable, some_]
      simp only [available]
      rw [mask_eq_wrap ok'.head]
      exact ⟨RingBuffer.Ok.advance ok', RingBuffer.pending_advance ok' some_⟩

theorem run_fifo (ok : BufOk k.ring) (steps : List KbdStep) :
    BufOk (k.run steps).ring ∧
      pending k.ring ++ k.acceptedIn steps = k.returnedIn steps ++ pending (k.run steps).ring := by
  induction steps generalizing k with
  | nil => exact ⟨ok, List.append_nil _⟩
  | cons step steps ih =>
    obtain ⟨ok', moved⟩ := step_fifo ok step
    obtain ⟨okEnd, rest⟩ := ih ok'
    refine ⟨okEnd, ?_⟩
    rw [Keyboard.acceptedIn, Keyboard.returnedIn, ← List.append_assoc, moved, List.append_assoc, rest,
      List.append_assoc]
    rfl

/-- The keyboard before its first use. -/
def kbdBoot (decoder : KbdState) (port : List PortByte) : Keyboard :=
  ⟨decoder, ⟨fun _ => nul, 0, 0⟩, port⟩

/-- Over every run the characters returned, followed by those pending, are the characters accepted,
in order; a push is dropped exactly at 255 pending characters and never touches a pending one; and
there is a character to be had exactly if one is pending. -/
theorem kbd_fifo (decoder : KbdState) (port : List PortByte) (steps : List KbdStep) :
    (kbdBoot decoder port).acceptedIn steps =
        (kbdBoot decoder port).returnedIn steps ++ pending ((kbdBoot decoder port).run steps).ring ∧
      (∀ c, (bufPush c ((kbdBoot decoder port).run steps).ring =
            ((kbdBoot decoder port).run steps).ring ↔
          (pending ((kbdBoot decoder port).run steps).ring).length = 255) ∧
        pending ((kbdBoot decoder port).run steps).ring <+:
          pending (bufPush c ((kbdBoot decoder port).run steps).ring)) ∧
      (kbdAvailable ((kbdBoot decoder port).run steps).ring = true ↔
        0 < (pending ((kbdBoot decoder port).run steps).ring).length) := by
  have boot : BufOk (kbdBoot decoder port).ring := ⟨Nat.succ_pos 255, Nat.succ_pos 255⟩
  obtain ⟨ok, queue⟩ := run_fifo boot steps
  refine ⟨queue, fun c => ⟨bufPush_dropped_iff ok c, ?_⟩, ?_⟩
  · rw [pending_bufPush ok c]
    exact List.prefix_append ..
  · have empty := RingBuffer.empty_iff ok
    rw [pending, RingBuffer.length_pending, kbdAvailable, decide_eq_true_eq, Ne, empty, Nat.pos_iff_ne_zero]

end LithiumKernel.Drivers
