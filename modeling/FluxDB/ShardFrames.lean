-- One shard of the buffer pool with the contents of its pages. Threads fetch, write, flush
-- and delete pages; every step below is what a thread does under one hold of the shard's
-- lock, or one use of a frame's latch or of the disk.
import FluxDB.Lib.Runs
import FluxDB.Lib.Maps

namespace FluxDB.Shard

open Function (update)

/-! ## The clock -/

structure ClockReplacer where
  size : Nat
  hand : Nat
  ref_bits : Nat → Bool
  evictable : Nat → Bool

namespace ClockReplacer

def new (size : Nat) : ClockReplacer where
  size := size
  hand := 0
  ref_bits := fun _ => false
  evictable := fun _ => false

/-- One look of the hand at a frame: a victim, or the clock one frame further. -/
def tick (r : ClockReplacer) : Option Nat × ClockReplacer :=
  let next := (r.hand + 1) % r.size
  if r.evictable r.hand then
    if r.ref_bits r.hand then
      (none, { r with ref_bits := update r.ref_bits r.hand false, hand := next })
    else
      (some r.hand, { r with evictable := update r.evictable r.hand false, hand := next })
  else (none, { r with hand := next })

/-- The loop of `victim`, with the looks it has left. -/
def search (r : ClockReplacer) : Nat → Option Nat × ClockReplacer
  | 0 => (none, r)
  | n + 1 =>
    match r.tick with
    | (some f, r') => (some f, r')
    | (none, r') => r'.search n

def victim (r : ClockReplacer) : Option Nat × ClockReplacer := r.search (2 * r.size)

def unpin (r : ClockReplacer) (f : Nat) : ClockReplacer :=
  { r with evictable := update r.evictable f true
           ref_bits := update r.ref_bits f true }

def pin (r : ClockReplacer) (f : Nat) : ClockReplacer :=
  { r with evictable := update r.evictable f false
           ref_bits := update r.ref_bits f false }

theorem search_spec (n : Nat) (r : ClockReplacer) : match (r.search n).1 with
    | some f =>
      r.evictable f = true ∧ (r.search n).2.evictable = update r.evictable f false
    | none => (r.search n).2.evictable = r.evictable := by
  induction n generalizing r with
  | zero => simp [search]
  | succ n ih =>
    simp only [search, tick]
    by_cases he : r.evictable r.hand = true
    · by_cases hr : r.ref_bits r.hand = true
      · simpa only [he, hr, if_true] using ih _
      · simp [he, hr]
    · simpa only [he, Bool.false_eq_true, if_false] using ih _

/-- A victim was evictable and is so no more. -/
theorem victim_some {r : ClockReplacer} {f : Nat} (h : r.victim.1 = some f) :
    r.evictable f = true ∧ r.victim.2.evictable = update r.evictable f false := by
  have := search_spec (2 * r.size) r
  unfold victim at h ⊢
  rw [h] at this
  exact this

theorem victim_none {r : ClockReplacer} (h : r.victim.1 = none) :
    r.victim.2.evictable = r.evictable := by
  have := search_spec (2 * r.size) r
  unfold victim at h ⊢
  rw [h] at this
  exact this

/-- A call on the clock. -/
inductive ClockCall where
  | pin (f : Nat)
  | unpin (f : Nat)
  | victim

/-- The clock behind a call. A frame that it does not have is a panic of the source. -/
def step (r : ClockReplacer) : ClockCall → Option ClockReplacer
  | .pin f => if f < r.size then some (r.pin f) else none
  | .unpin f => if f < r.size then some (r.unpin f) else none
  | .victim => some r.victim.2

/-- The hand is at a frame, and the evictable frames are frames. -/
structure Ticking (size : Nat) (r : ClockReplacer) : Prop where
  size_eq : r.size = size
  hand_lt : r.hand < size
  frames : ∀ f, r.evictable f = true → f < size

theorem search_keeps (n : Nat) {r : ClockReplacer} (h : r.hand < r.size) :
    (r.search n).2.size = r.size ∧ (r.search n).2.hand < r.size := by
  induction n generalizing r with
  | zero => exact ⟨rfl, h⟩
  | succ n ih =>
    have hnext : (r.hand + 1) % r.size < r.size := Nat.mod_lt _ (by omega)
    simp only [search, tick]
    by_cases he : r.evictable r.hand = true
    · by_cases hr : r.ref_bits r.hand = true
      · simpa only [he, hr, if_true] using ih hnext
      · simpa [he, hr] using hnext
    · simpa only [he, Bool.false_eq_true, if_false] using ih hnext

theorem ticking_step {size : Nat} (r : ClockReplacer) (call : ClockCall) (r' : ClockReplacer)
    (h : Ticking size r) (hstep : r.step call = some r') : Ticking size r' := by
  obtain ⟨rfl, hhand, hframes⟩ := h
  cases call with
  | pin f =>
    obtain ⟨-, ⟨⟩⟩ := Option.ite_none_right_eq_some.mp hstep
    refine ⟨rfl, hhand, fun f' hf' => hframes f' ?_⟩
    simp only [pin, Function.update_apply] at hf'
    split at hf'
    · cases hf'
    · exact hf'
  | unpin f =>
    obtain ⟨hf, ⟨⟩⟩ := Option.ite_none_right_eq_some.mp hstep
    refine ⟨rfl, hhand, fun f' hf' => ?_⟩
    simp only [unpin, Function.update_apply] at hf'
    split at hf'
    · next heq => exact heq ▸ hf
    · exact hframes f' hf'
  | victim =>
    cases hstep
    obtain ⟨hsize, hhand'⟩ := search_keeps (2 * r.size) hhand
    refine ⟨hsize, hhand', fun f' hf' => hframes f' ?_⟩
    cases hv : r.victim.1 with
    | none => rwa [victim_none hv] at hf'
    | some f =>
      rw [(victim_some hv).2, Function.update_apply] at hf'
      split at hf'
      · cases hf'
      · exact hf'

/-- How many frames the hand passes until it is at the frame and finds no reference bit there. -/
def distance (r : ClockReplacer) (f : Nat) : Nat :=
  (if r.hand ≤ f then f - r.hand else f + r.size - r.hand) + if r.ref_bits f then r.size else 0

/-- Every look takes the hand nearer to an evictable frame, unless it finds another one. -/
theorem search_finds {n f : Nat} {r : ClockReplacer} (hhand : r.hand < r.size) (hf : f < r.size)
    (he : r.evictable f = true) (hn : r.distance f < n) : (r.search n).1 ≠ none := by
  induction n generalizing r with
  | zero => exact absurd hn (Nat.not_lt_zero _)
  | succ n ih =>
    have hlt : (r.hand + 1) % r.size < r.size := Nat.mod_lt _ (by omega)
    have hnext : (r.hand + 1) % r.size = if r.hand + 1 = r.size then 0 else r.hand + 1 := by
      split
      · next hend => rw [hend, Nat.mod_self]
      · exact Nat.mod_eq_of_lt (by omega)
    unfold distance at hn ih
    simp only [search, tick]
    by_cases hhere : r.evictable r.hand = true
    · by_cases hr : r.ref_bits r.hand = true
      · simp only [hhere, hr, if_true]
        refine ih hlt hf he ?_
        simp only [Function.update_apply]
        by_cases heq : f = r.hand
        · subst heq
          simp only [hr, if_true, Bool.false_eq_true, if_false] at hn ⊢
          split_ifs at hn hnext ⊢ <;> omega
        simp only [if_neg heq]
        split_ifs at hn hnext ⊢ <;> omega
      · simp [hhere, hr]
    have hne : f ≠ r.hand := fun heq => hhere (heq ▸ he)
    simp only [hhere, Bool.false_eq_true, if_false]
    refine ih hlt hf he ?_
    dsimp only
    split_ifs at hn hnext ⊢ <;> omega

/-- Two rounds of the hand are enough: a victim is found whenever a frame is evictable, it is one
of those frames, and the others are evictable as before. -/
theorem victim_of_an_evictable_frame {size : Nat} (hsize : 1 ≤ size) {calls : List ClockCall}
    {r : ClockReplacer} (h : Runs.run step (new size) calls = some r) :
    r.victim = r.search (2 * size) ∧ (r.victim.1 = none ↔ ∀ f < size, r.evictable f = false) ∧
      ∀ f, r.victim.1 = some f → f < size ∧ r.evictable f = true ∧
        r.victim.2.evictable = update r.evictable f false := by
  obtain ⟨rfl, hhand, hframes⟩ := Runs.inv_run ticking_step (s := new size) ⟨rfl, hsize, nofun⟩ h
  refine ⟨rfl, ⟨fun hnone f hf => ?_, fun hall => ?_⟩, fun f hf => ?_⟩
  · by_contra he
    refine search_finds hhand hf (Bool.not_eq_false _ ▸ he) ?_ hnone
    unfold distance
    split_ifs <;> omega
  · rw [Option.eq_none_iff_forall_ne_some]
    intro f hf
    obtain ⟨he, -⟩ := victim_some hf
    rw [hall f (hframes f he)] at he
    cases he
  · obtain ⟨he, hothers⟩ := victim_some hf
    exact ⟨hframes f he, he, hothers⟩

theorem the_second_of_two_frames_is_a_victim :
    ∃ r, Runs.run step (new 2) [.unpin 0, .unpin 1, .pin 0] = some r ∧ r.victim.1 = some 1 ∧
      r.victim.2.evictable = update r.evictable 1 false := by
  have h : Runs.run step (new 2) [.unpin 0, .unpin 1, .pin 0] =
      some ((((new 2).unpin 0).unpin 1).pin 0) := rfl
  refine ⟨_, h, by decide, ?_⟩
  exact ((victim_of_an_evictable_frame (by decide) h).2.2 1 (by decide)).2.2

end ClockReplacer

/-! ## Frames and threads -/

/-- The metadata of a frame; a free frame has no page. -/
structure FrameMetadata where
  page_id : Option Nat
  pin_count : Nat
  is_dirty : Bool
  loading : Bool
  deriving DecidableEq, Repr

def FrameMetadata.free : FrameMetadata where
  page_id := none
  pin_count := 0
  is_dirty := false
  loading := false

/-- The call that a thread is to return a guard from. -/
inductive Access
  | fetch_page
  | fetch_page_mut
  | new_page
  deriving DecidableEq, Repr

/-- Who calls `flush_page_inner`; `flush_all_pages_no_sync` goes on with a frame. -/
inductive Caller
  | flush_page
  | flush_all_pages (frame : Nat)
  | acquire_frame (access : Access) (page : Nat)
  deriving DecidableEq, Repr

/-- What a page is written out for. -/
inductive After
  | flush (caller : Caller)
  | delete_page
  deriving DecidableEq, Repr

/-- Where a thread is. From `latch` on, and during a write-out, it names the page and the
frame it works on. -/
inductive Thread (α : Type)
  /-- at the head of the loop of `acquire_frame` -/
  | acquire_frame (access : Access) (page : Nat)
  /-- has a pin and waits for the frame's latch -/
  | latch (access : Access) (page frame : Nat) (needs_load : Bool)
  /-- has the write latch, and reads the page from disk or fills it with zeros next -/
  | load (access : Access) (page frame : Nat) (needs_load : Bool)
  /-- calls `finish_load` with success next -/
  | loaded (access : Access) (page frame : Nat) (needs_load : Bool)
  /-- calls `finish_load` without success next -/
  | load_failed (page frame : Nat)
  | read_guard (page frame : Nat)
  /-- `fresh`: the guard is from `new_page` -/
  | write_guard (page frame : Nat) (dirty fresh : Bool)
  /-- the guard's latch is dropped, `unpin_page` is next -/
  | unpin_page (page frame : Nat) (dirty : Bool)
  /-- at the start of `flush_page_inner` -/
  | flush_page (page : Nat) (caller : Caller)
  /-- at the next frame of `flush_all_pages_no_sync` -/
  | flush_all_pages (frame : Nat)
  /-- at the head of the loop of `delete_page` -/
  | delete_page (page : Nat)
  /-- copies the frame next -/
  | copy_frame (page frame : Nat) (after : After)
  | write_page (page frame : Nat) (after : After) (buf : α)
  /-- the write has succeeded or failed, the pin is given back next -/
  | written (page frame : Nat) (after : After) (ok : Bool)
  | done
  deriving DecidableEq, Repr

/-- A shard, its part of the disk and its threads. The free list has the last frame pushed
in front. `latest` is what the most recent write guard on a page has left, and `contents`
everything that write guards have left there. -/
structure World (α : Type) where
  n_frames : Nat
  metadata : Nat → FrameMetadata
  page_table : Nat → Option Nat
  free_list : List Nat
  replacer : ClockReplacer
  pages : Nat → α
  disk : Nat → α
  threads : List (Thread α)
  latest : Nat → α
  contents : Nat → List α

/-- What can happen next. `run` is the next step of a thread, and `fail` one that ends with
an error of the disk or of the log. -/
inductive Event (α : Type)
  | fetch_page (p : Nat)
  | fetch_page_mut (p : Nat)
  | new_page (p : Nat)
  | flush_page (p : Nat)
  | flush_all_pages
  | delete_page (p : Nat)
  | run (i : Nat)
  | fail (i : Nat)
  | write (i : Nat) (data : α)
  | drop_guard (i : Nat)
  deriving DecidableEq, Repr

namespace Thread

variable {α : Type}

/-- The page and the frame that the thread has a pin for. -/
def uses : Thread α → Option (Nat × Nat)
  | latch _ p f _ | load _ p f _ | loaded _ p f _ | load_failed p f | read_guard p f
  | write_guard p f _ _ | unpin_page p f _ | copy_frame p f _ | write_page p f _ _
  | written p f _ _ => some (p, f)
  | _ => none

/-- The thread has a pin on the frame. -/
def on (f : Nat) (t : Thread α) : Bool := t.uses.any fun u => u.2 == f

/-- The thread holds its frame's write latch. `fetch_page` drops the latch after the load. -/
def writes : Thread α → Bool
  | load .. | write_guard .. => true
  | loaded a .. => a != .fetch_page
  | _ => false

/-- The thread holds its frame's read latch for a guard. -/
def reads : Thread α → Bool
  | read_guard .. => true
  | _ => false

/-- The thread writes its frame out, for a flush or for `delete_page`. -/
def flushes : Thread α → Bool
  | copy_frame .. | write_page .. | written .. => true
  | _ => false

/-- The thread is in the write-out of `delete_page`. -/
def deletes : Thread α → Bool
  | copy_frame _ _ .delete_page | write_page _ _ .delete_page _ | written _ _ .delete_page _ => true
  | _ => false

/-- The thread is between the reservation of its frame and the end of the load. -/
def loads : Thread α → Bool
  | latch _ _ _ needs_load | load _ _ _ needs_load | loaded _ _ _ needs_load => needs_load
  | load_failed .. => true
  | _ => false

end Thread

/-- The thread when its call of `flush_page_inner` has returned without an error. -/
def Caller.resume {α : Type} : Caller → Thread α
  | flush_page => .done
  | flush_all_pages f => .flush_all_pages f
  | acquire_frame a p => .acquire_frame a p

/-- The thread after a write-out of page `p` that went well. -/
def After.resume {α : Type} (after : After) (p : Nat) : Thread α :=
  match after with
  | flush caller => caller.resume
  | delete_page => .delete_page p

/-! ## Steps -/

namespace World

variable {α : Type}

def setThread (w : World α) (i : Nat) (t : Thread α) : World α :=
  { w with threads := w.threads.set i t }

def setMeta (w : World α) (f : Nat) (m : FrameMetadata) : World α :=
  { w with metadata := update w.metadata f m }

def write_latched (w : World α) (f : Nat) : Bool := w.threads.any fun t => t.on f && t.writes

def latched (w : World α) (f : Nat) : Bool :=
  w.threads.any fun t => t.on f && (t.writes || t.reads)

def find_victim_frame_id (w : World α) : Option Nat × World α :=
  match w.free_list with
  | f :: fs => (some f, { w with free_list := fs })
  | [] => (w.replacer.victim.1, { w with replacer := w.replacer.victim.2 })

/-- The frame leaves its page. -/
def evict (w : World α) (f : Nat) : World α :=
  match (w.metadata f).page_id with
  | some old =>
    { w with page_table := update w.page_table old none
             metadata := update w.metadata f { w.metadata f with page_id := none } }
  | none => w

/-- The frame is published for `p` in the loading state. -/
def reserve (w : World α) (p f : Nat) : World α :=
  { w with page_table := update w.page_table p (some f)
           metadata := update w.metadata f
             { page_id := some p, pin_count := 1, is_dirty := false, loading := true }
           replacer := w.replacer.pin f }

/-- The page that sits dirty in a frame. -/
def dirty_page (w : World α) (f : Nat) : Option Nat :=
  if (w.metadata f).is_dirty then (w.metadata f).page_id else none

/-- One pass of the loop of `acquire_frame`. A thread that meets a page in the loading state
waits. -/
def acquire_frame (w : World α) (i : Nat) (a : Access) (p : Nat) : Option (World α) :=
  match w.page_table p with
  | some f =>
    if (w.metadata f).loading then none
    else
      let m := w.metadata f
      some ({ w.setMeta f { m with pin_count := m.pin_count + 1 } with
                replacer := w.replacer.pin f }.setThread i (.latch a p f false))
  | none =>
    match w.find_victim_frame_id with
    | (none, w) => some (w.setThread i .done)
    | (some f, w) =>
      match w.dirty_page f with
      | some old => some (w.setThread i (.flush_page old (.acquire_frame a p)))
      | none => some (((w.evict f).reserve p f).setThread i (.latch a p f true))

/-- The frame's latch is granted: a read guard needs no writer on the frame, a write guard
and a load need no guard at all. -/
def take_latch (w : World α) (i : Nat) (a : Access) (p f : Nat) (needs_load : Bool) :
    Option (World α) :=
  match a, needs_load with
  | .fetch_page, false =>
    if w.write_latched f then none else some (w.setThread i (.read_guard p f))
  | .fetch_page_mut, false =>
    if w.latched f then none else some (w.setThread i (.write_guard p f false false))
  | _, _ => if w.latched f then none else some (w.setThread i (.load a p f needs_load))

/-- The thread of a call whose page is in its frame. -/
def ready (a : Access) (p f : Nat) : Thread α :=
  match a with
  | .fetch_page => .latch .fetch_page p f false
  | .fetch_page_mut => .write_guard p f false false
  | .new_page => .write_guard p f false true

/-- The frame of `p` goes back to the free list. -/
def free_frame (w : World α) (p f : Nat) (loading : Bool) : World α :=
  { w with page_table := update w.page_table p none
           metadata := update w.metadata f { FrameMetadata.free with loading := loading }
           replacer := w.replacer.pin f
           free_list := f :: w.free_list }

/-- One pin less, and a flag for the frame; without pins the frame is evictable. -/
def unpin (w : World α) (f : Nat) (is_dirty : Bool) : World α :=
  let m := w.metadata f
  { w.setMeta f { m with pin_count := m.pin_count - 1, is_dirty := is_dirty } with
      replacer := if m.pin_count - 1 = 0 then w.replacer.unpin f else w.replacer }

def unpin_page (w : World α) (p : Nat) (is_dirty : Bool) : World α :=
  match w.page_table p with
  | some f =>
    if 0 < (w.metadata f).pin_count then w.unpin f ((w.metadata f).is_dirty || is_dirty) else w
  | none => w

/-- The start of `flush_page_inner`. A dirty page is pinned, but its frame stays in the
replacer. -/
def flush_page (w : World α) (i p : Nat) (caller : Caller) : World α :=
  match w.page_table p with
  | some f =>
    match w.dirty_page f with
    | some pid =>
      let m := w.metadata f
      (w.setMeta f { m with is_dirty := false, pin_count := m.pin_count + 1 }).setThread i
        (.copy_frame pid f (.flush caller))
    | none => w.setThread i caller.resume
  | none => w.setThread i caller.resume

/-- The end of a write-out. A failed one leaves the page dirty; `delete_page` clears the flag
only now. -/
def end_write (w : World α) (i p f : Nat) (after : After) (ok : Bool) : World α :=
  if ok then
    (w.unpin f (if after = .delete_page then false else (w.metadata f).is_dirty)).setThread i
      (after.resume p)
  else (w.unpin f true).setThread i .done

/-- One pass of the loop of `delete_page`. -/
def delete_page (w : World α) (i p : Nat) : World α :=
  match w.page_table p with
  | none => w.setThread i .done
  | some f =>
    let m := w.metadata f
    if 0 < m.pin_count then w.setThread i .done
    else if m.is_dirty then
      (w.setMeta f { m with pin_count := m.pin_count + 1 }).setThread i
        (.copy_frame (m.page_id.getD p) f .delete_page)
    else (w.free_frame p f m.loading).setThread i .done

variable [Inhabited α]

/-- The next step of thread `i`. -/
def runThread (w : World α) (i : Nat) : Thread α → Option (World α)
  | .acquire_frame a p => w.acquire_frame i a p
  | .latch a p f needs_load => w.take_latch i a p f needs_load
  | .load a p f needs_load =>
    let data := if a = .new_page then default else w.disk p
    some ({ w with pages := update w.pages f data }.setThread i (.loaded a p f needs_load))
  | .loaded a p f _ =>
    some ((w.setMeta f { w.metadata f with loading := false }).setThread i (ready a p f))
  | .load_failed p f => some ((w.free_frame p f false).setThread i .done)
  | .unpin_page p _ dirty => some ((w.unpin_page p dirty).setThread i .done)
  | .flush_page p caller => some (w.flush_page i p caller)
  | .flush_all_pages f =>
    if f < w.n_frames then
      match w.dirty_page f with
      | some p => some (w.setThread i (.flush_page p (.flush_all_pages (f + 1))))
      | none => some (w.setThread i (.flush_all_pages (f + 1)))
    else some (w.setThread i .done)
  | .delete_page p => some (w.delete_page i p)
  | .copy_frame p f after =>
    if w.write_latched f then none
    else some (w.setThread i (.write_page p f after (w.pages f)))
  | .write_page p f after buf =>
    some ({ w with disk := update w.disk p buf }.setThread i (.written p f after true))
  | .written p f after ok => some (w.end_write i p f after ok)
  | .read_guard .. | .write_guard .. | .done => none

/-- A step of a thread that ends with an error: a page cannot be read or is corrupt, the log
cannot be flushed, or a page cannot be written or synced. -/
def failThread (w : World α) (i : Nat) : Thread α → Option (World α)
  | .load a p f _ =>
    if a = .new_page then none else some (w.setThread i (.load_failed p f))
  | .write_page p f after _ => some (w.setThread i (.written p f after false))
  | .written p f (.flush .flush_page) true =>
    some (w.setThread i (.written p f (.flush .flush_page) false))
  | _ => none

def call (w : World α) (t : Thread α) : World α := { w with threads := w.threads ++ [t] }

def step (w : World α) : Event α → Option (World α)
  | .fetch_page p => some (w.call (.acquire_frame .fetch_page p))
  | .fetch_page_mut p => some (w.call (.acquire_frame .fetch_page_mut p))
  | .new_page p => some (w.call (.acquire_frame .new_page p))
  | .flush_page p => some (w.call (.flush_page p .flush_page))
  | .flush_all_pages => some (w.call (.flush_all_pages 0))
  | .delete_page p => some (w.call (.delete_page p))
  | .run i => (w.threads[i]?).bind (w.runThread i)
  | .fail i => (w.threads[i]?).bind (w.failThread i)
  | .write i data =>
    match w.threads[i]? with
    | some (.write_guard p f _ fresh) =>
      some ({ w with pages := update w.pages f data }.setThread i
        (.write_guard p f true fresh))
    | _ => none
  | .drop_guard i =>
    match w.threads[i]? with
    | some (.read_guard p f) => some (w.setThread i (.unpin_page p f false))
    | some (.write_guard p f dirty _) =>
      some ({ w with latest := update w.latest p (w.pages f)
                     contents := update w.contents p (w.pages f :: w.contents p) }.setThread
        i (.unpin_page p f dirty))
    | _ => none

/-- A shard with `n_frames` frames over a disk. -/
def new (n_frames : Nat) (disk : Nat → α) : World α where
  n_frames := n_frames
  metadata := fun _ => FrameMetadata.free
  page_table := fun _ => none
  free_list := List.range n_frames
  replacer := ClockReplacer.new n_frames
  pages := fun _ => default
  disk := disk
  threads := []
  latest := disk
  contents := fun p => [disk p]

end World

end FluxDB.Shard
