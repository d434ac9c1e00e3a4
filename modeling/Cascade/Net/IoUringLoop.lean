import Cascade.Library.Runs
import Mathlib.Data.Finmap

/-!
# The loop on `io_uring`

The model of `net/io_uring_loop.hpp`. For a file descriptor that is registered, a poll request is in
flight, and its completion calls the callback, after which the request is submitted again. A request
carries the number of the descriptor only, and is not cancelled when the descriptor is removed. So
the completion of an old request may call a new callback, when the number is used again.

A request is in flight until its completion is seen. The kernel completes them in any order. As
every request is handed to the kernel at once, there is always room for the next one. Callbacks use
the loop, and do not throw. When a callback removes its descriptor and adds it again, the source
goes on with an iterator that has become invalid; here the entry that is there is taken.
-/

open Runs

namespace Net

/-- A callback that is registered with the events of interest. The number of the registration is not
in the source. -/
structure LoopEntry where
  events : UInt32
  registration : ℕ
deriving DecidableEq

/-- A poll request, with the registration for which it was submitted. -/
structure PollRequest where
  fd : ℤ
  events : UInt32
  registration : ℕ
deriving DecidableEq

/-- The callbacks, the requests in flight, and the descriptor whose callback is running. The number
of registrations, and the calls of callbacks, with the registrations of the request and of the
callback, are not in the source. -/
structure IoUringLoop where
  callbacks : Finmap fun _ : ℤ => LoopEntry
  inFlight : List PollRequest
  running : Option ℤ
  registrations : ℕ
  dispatched : List (ℕ × ℕ)

namespace IoUringLoop

def empty : IoUringLoop := ⟨∅, [], none, 0, []⟩

def submitPoll (l : IoUringLoop) (fd : ℤ) (entry : LoopEntry) : IoUringLoop :=
  { l with inFlight := l.inFlight ++ [⟨fd, entry.events, entry.registration⟩] }

def add (l : IoUringLoop) (fd : ℤ) (events : UInt32) : IoUringLoop :=
  let entry : LoopEntry := ⟨events, l.registrations⟩
  { l with
    callbacks := l.callbacks.insert fd entry
    registrations := l.registrations + 1 }.submitPoll fd entry

def modify (l : IoUringLoop) (fd : ℤ) (events : UInt32) : IoUringLoop :=
  match l.callbacks.lookup fd with
  | none => l
  | some entry => { l with callbacks := l.callbacks.insert fd { entry with events } }

def remove (l : IoUringLoop) (fd : ℤ) : IoUringLoop :=
  { l with callbacks := l.callbacks.erase fd }

/-- The loop of `poll_once` sees the completion of a request, and calls the callback. -/
def complete (l : IoUringLoop) (i : ℕ) (result : Int32) : IoUringLoop :=
  match l.running, l.inFlight[i]? with
  | none, some request =>
      let l := { l with inFlight := l.inFlight.eraseIdx i }
      match l.callbacks.lookup request.fd with
      | some entry =>
          if 0 ≤ result then
            { l with
              running := some request.fd
              dispatched := (request.registration, entry.registration) :: l.dispatched }
          else l
      | none => l
  | _, _ => l

/-- The callback returns, and the request is submitted again. -/
def rearm (l : IoUringLoop) : IoUringLoop :=
  match l.running with
  | none => l
  | some fd =>
      let l := { l with running := none }
      match l.callbacks.lookup fd with
      | some entry => l.submitPoll fd entry
      | none => l

/-! ### Runs -/

/-- The calls from outside and from callbacks, and the steps of `poll_once`. -/
inductive Action
  | add (fd : ℤ) (events : UInt32)
  | modify (fd : ℤ) (events : UInt32)
  | remove (fd : ℤ)
  | complete (i : ℕ) (result : Int32)
  | rearm

def step (l : IoUringLoop) : Action → IoUringLoop
  | .add fd events => l.add fd events
  | .modify fd events => l.modify fd events
  | .remove fd => l.remove fd
  | .complete i result => l.complete i result
  | .rearm => l.rearm

def run (l : IoUringLoop) (actions : List Action) : IoUringLoop :=
  actions.foldl step l

/-- The requests in flight for a descriptor. -/
def requestsFor (l : IoUringLoop) (fd : ℤ) : List PollRequest :=
  l.inFlight.filter (·.fd = fd)

/-- A descriptor is added when it is not registered, no request for its number is in flight, and its
callback is not running; and no completion for a descriptor that is registered is an error. -/
def Allowed (l : IoUringLoop) : Action → Prop
  | .add fd _ => l.callbacks.lookup fd = none ∧ l.requestsFor fd = [] ∧ l.running ≠ some fd
  | .complete i result => ∀ request ∈ l.inFlight[i]?,
      (l.callbacks.lookup request.fd).isSome = true → 0 ≤ result
  | _ => True

instance (l : IoUringLoop) (action : Action) : Decidable (l.Allowed action) :=
  match action with
  | .add _ _ => inferInstanceAs (Decidable (_ ∧ _))
  | .complete _ _ => inferInstanceAs (Decidable (∀ _ ∈ _, _))
  | .modify _ _ | .remove _ | .rearm => .isTrue trivial

/-! ### The invariant -/

/-- A descriptor that is registered has one request in flight, which was submitted for its
registration, or its callback is running. -/
structure Watched (l : IoUringLoop) : Prop where
  watched : ∀ fd entry, l.callbacks.lookup fd = some entry → l.running ≠ some fd →
    (l.requestsFor fd).map PollRequest.registration = [entry.registration]
  paused : ∀ fd, l.running = some fd → l.requestsFor fd = []
  matched : ∀ d ∈ l.dispatched, d.1 = d.2

namespace Watched

variable {l : IoUringLoop} {fd : ℤ}

theorem start :
  Watched .empty
  := by
  refine ⟨?_, ?_, ?_⟩
  · rintro fd entry ⟨⟩
  · rintro fd ⟨⟩
  · exact fun d hd => absurd hd List.not_mem_nil

theorem requestsFor_submitPoll_self (l : IoUringLoop) (fd : ℤ) (entry : LoopEntry) :
  (l.submitPoll fd entry).requestsFor fd
    = l.requestsFor fd ++ [⟨fd, entry.events, entry.registration⟩]
  := by
  simp [requestsFor, submitPoll]

theorem requestsFor_submitPoll_of_ne {fd' : ℤ} (hne : fd' ≠ fd) (l : IoUringLoop)
    (entry : LoopEntry) :
  (l.submitPoll fd entry).requestsFor fd' = l.requestsFor fd'
  := by
  simp [requestsFor, submitPoll, hne.symm]

theorem add (h : l.Watched) {events : UInt32} (hallowed : l.Allowed (.add fd events)) :
  (l.add fd events).Watched
  := by
  obtain ⟨hlookup, hnone, hrunning⟩ := hallowed
  refine ⟨fun fd' entry hentry hnot => ?_, fun fd' hfd' => ?_, h.matched⟩
  · rcases eq_or_ne fd' fd with rfl | hne
    · obtain rfl := Option.some.inj ((Finmap.lookup_insert _).symm.trans hentry)
      have hrequests : (l.add fd' events).requestsFor fd' = l.requestsFor fd' ++ _ :=
        requestsFor_submitPoll_self ..
      rw [hrequests, hnone]
      rfl
    · have hold : l.callbacks.lookup fd' = some entry :=
        (Finmap.lookup_insert_of_ne _ hne).symm.trans hentry
      have hrequests : (l.add fd events).requestsFor fd' = l.requestsFor fd' :=
        requestsFor_submitPoll_of_ne hne ..
      rw [hrequests]
      exact h.watched fd' entry hold hnot
  · have hne : fd' ≠ fd := by
      rintro rfl
      exact hrunning hfd'
    have hrequests : (l.add fd events).requestsFor fd' = l.requestsFor fd' :=
      requestsFor_submitPoll_of_ne hne ..
    rw [hrequests]
    exact h.paused fd' hfd'

theorem modify (h : l.Watched) (fd : ℤ) (events : UInt32) :
  (l.modify fd events).Watched
  := by
  rw [IoUringLoop.modify]
  split
  · exact h
  · rename_i entry hentry
    refine ⟨fun fd' entry' hentry' hnot => ?_, h.paused, h.matched⟩
    rcases eq_or_ne fd' fd with rfl | hne
    · obtain rfl := Option.some.inj ((Finmap.lookup_insert _).symm.trans hentry')
      exact h.watched fd' entry hentry hnot
    · have hold : l.callbacks.lookup fd' = some entry' :=
        (Finmap.lookup_insert_of_ne _ hne).symm.trans hentry'
      exact h.watched fd' entry' hold hnot

theorem remove (h : l.Watched) (fd : ℤ) :
  (l.remove fd).Watched
  := by
  refine ⟨fun fd' entry hentry hnot => ?_, h.paused, h.matched⟩
  rcases eq_or_ne fd' fd with rfl | hne
  · have hnone : (l.remove fd').callbacks.lookup fd' = none := Finmap.lookup_erase ..
    rw [hnone] at hentry
    cases hentry
  · exact h.watched fd' entry ((Finmap.lookup_erase_ne hne).symm.trans hentry) hnot

/-- The requests for a descriptor, up to their order, with one request in front. -/
theorem requestsFor_perm {i : ℕ} {request : PollRequest} (hi : l.inFlight[i]? = some request)
    (fd : ℤ) :
  (l.requestsFor fd).Perm ((request :: l.inFlight.eraseIdx i).filter (·.fd = fd))
  := by
  obtain ⟨hlt, rfl⟩ := List.getElem?_eq_some_iff.mp hi
  exact (List.getElem_cons_eraseIdx_perm hlt).symm.filter _

/-- A request for another descriptor is no longer in flight. -/
theorem watched_eraseIdx (h : l.Watched) {i : ℕ} {request : PollRequest}
    (hi : l.inFlight[i]? = some request) {entry : LoopEntry}
    (hentry : l.callbacks.lookup fd = some entry)
    (hnot : l.running ≠ some fd) (hne : request.fd ≠ fd) :
  ({ l with inFlight := l.inFlight.eraseIdx i }.requestsFor fd).map PollRequest.registration
    = [entry.registration]
  := by
  have hperm := requestsFor_perm hi fd
  rw [List.filter_cons_of_neg (by simpa using hne)] at hperm
  have hmap := hperm.map PollRequest.registration
  rw [h.watched fd entry hentry hnot] at hmap
  exact List.perm_singleton.mp hmap.symm

theorem complete (h : l.Watched) {i : ℕ} {result : Int32}
    (hallowed : l.Allowed (.complete i result)) :
  (l.complete i result).Watched
  := by
  rw [IoUringLoop.complete]
  split
  · rename_i request hrunning hi
    have hnot : ∀ fd, l.running ≠ some fd := by
      rw [hrunning]
      simp
    dsimp only
    split
    · rename_i entry hentry
      have hresult : 0 ≤ result := hallowed request hi (by rw [hentry]; rfl)
      rw [if_pos hresult]
      -- The request was the one for this registration.
      have hperm := requestsFor_perm hi request.fd
      rw [List.filter_cons_of_pos (by simp)] at hperm
      have hmap := hperm.map PollRequest.registration
      rw [h.watched request.fd entry hentry (hnot _)] at hmap
      have hsingle := List.perm_singleton.mp hmap.symm
      obtain ⟨hregistration, hrest⟩ := List.cons.inj hsingle
      refine ⟨fun fd entry' hentry' hother => ?_, fun fd hfd => ?_, ?_⟩
      · have hne : request.fd ≠ fd := fun heq => hother (congrArg some heq)
        exact h.watched_eraseIdx hi hentry' (hnot fd) hne
      · obtain rfl := Option.some.inj hfd
        exact List.map_eq_nil_iff.mp hrest
      · exact List.forall_mem_cons.mpr ⟨hregistration, h.matched⟩
    · rename_i hentry
      refine ⟨fun fd entry' hentry' _ => ?_, fun fd hfd => absurd hfd (hnot fd), h.matched⟩
      have hne : request.fd ≠ fd := by
        rintro rfl
        cases hentry.symm.trans hentry'
      exact h.watched_eraseIdx hi hentry' (hnot fd) hne
  · exact h

theorem rearm (h : l.Watched) :
  l.rearm.Watched
  := by
  rw [IoUringLoop.rearm]
  split
  · exact h
  · rename_i fd hrunning
    have hpaused := h.paused fd hrunning
    have hother : ∀ fd', fd' ≠ fd → l.running ≠ some fd' := by
      rintro fd' hne heq
      exact hne (Option.some.inj (heq.symm.trans hrunning))
    dsimp only
    split
    · rename_i entry hentry
      refine ⟨fun fd' entry' hentry' _ => ?_, by rintro fd' ⟨⟩, h.matched⟩
      rcases eq_or_ne fd' fd with rfl | hne
      · obtain rfl := Option.some.inj (hentry.symm.trans hentry')
        rw [requestsFor_submitPoll_self]
        change (l.requestsFor fd' ++ _).map _ = _
        rw [hpaused]
        rfl
      · rw [requestsFor_submitPoll_of_ne hne]
        exact h.watched fd' entry' hentry' (hother fd' hne)
    · rename_i hentry
      refine ⟨fun fd' entry' hentry' _ => ?_, by rintro fd' ⟨⟩, h.matched⟩
      have hne : fd' ≠ fd := by
        rintro rfl
        cases hentry.symm.trans hentry'
      exact h.watched fd' entry' hentry' (hother fd' hne)

theorem step (h : l.Watched) {action : Action} (hallowed : l.Allowed action) :
  (l.step action).Watched
  := by
  cases action with
  | add fd events => exact h.add hallowed
  | modify fd events => exact h.modify fd events
  | remove fd => exact h.remove fd
  | complete i result => exact h.complete hallowed
  | rearm => exact h.rearm

theorem run (h : l.Watched) {actions : List Action}
    (halong : Along IoUringLoop.step Allowed l actions) :
  (l.run actions).Watched
  := by
  apply halong.invariant _ h
  intro l action h hallowed
  exact h.step hallowed

end Watched

/-- When descriptors are added only while nothing is left of a registration of the same number, and
no completion for a descriptor that is registered is an error, then callbacks are only called by
completions of requests that were submitted for their registration, and when no callback is
running, each descriptor that is registered has one request in flight. -/
theorem dispatch_matched {actions : List Action} (halong : Along step Allowed empty actions) :
  let l := empty.run actions
  (∀ d ∈ l.dispatched, d.1 = d.2)
    ∧ (l.running = none → ∀ fd entry, l.callbacks.lookup fd = some entry →
      (l.requestsFor fd).map PollRequest.registration = [entry.registration])
  := by
  intro l
  have hwatched : l.Watched := Watched.start.run halong
  refine ⟨hwatched.matched, fun hrunning fd entry hentry => ?_⟩
  apply hwatched.watched fd entry hentry
  rw [hrunning]
  simp

/-- A listener whose callback adds a connection, which is then removed by its own callback. -/
def acceptAndClose : List Action :=
  [.add 3 1, .complete 0 1, .add 4 1, .rearm, .complete 0 1, .remove 4, .rearm]

theorem dispatch_matched_acceptAndClose :
  Along step Allowed empty acceptAndClose
    ∧ (empty.run acceptAndClose).dispatched = [(1, 1), (0, 0)]
    ∧ ∀ d ∈ (empty.run acceptAndClose).dispatched, d.1 = d.2
  := by
  have halong : Along step Allowed empty acceptAndClose := by decide +kernel
  exact ⟨halong, by decide +kernel, (dispatch_matched halong).1⟩

/-- A number is used again while a request is in flight. -/
def reused : IoUringLoop := empty.run [.add 4 1, .remove 4, .add 4 1]

/-- A callback removes its descriptor and adds it again. -/
def readded : IoUringLoop := empty.run [.add 4 1, .complete 0 1, .remove 4, .add 4 1, .rearm]

/-- A request completes with an error. -/
def failed : IoUringLoop := empty.run [.add 4 1, .complete 0 (-9)]

/-- In the first case, the completion of the old request calls the new callback, and there are two
requests, as there are in the second case; in the third case, there is none. -/
theorem dispatch_not_matched :
  ((reused.requestsFor 4).map PollRequest.registration = [0, 1]
      ∧ (reused.run [.complete 0 1]).dispatched = [(0, 1)])
    ∧ (readded.running = none ∧ readded.requestsFor 4 = [⟨4, 1, 1⟩, ⟨4, 1, 1⟩])
    ∧ (failed.running = none ∧ failed.callbacks.lookup 4 = some ⟨1, 0⟩ ∧ failed.requestsFor 4 = [])
  := by
  decide +kernel

end IoUringLoop

end Net
