import Cascade.Replicated.Client

/-!
# Finding the leader

Both clients go from endpoint to endpoint until one answers that is the leader. Meanwhile the
others may answer anything that makes the client go on, in particular send it to an address where
nobody is, or back to themselves.

The client in Go keeps its position in the list of endpoints while it follows a redirect, so that
each one costs a single attempt (`Client.do_reaches_leader`). The client in C++ moves to the
address that it is sent to, also if that is where it is, and goes on from there. It is sure to find
the leader only where it starts, and finds it from anywhere when such answers stop soon enough
(`ControlPlaneClient.call_reaches_leader`).
-/

namespace Replicated

variable {σ α : Type}

/-! ### What the endpoints answer -/

/-- Every call to the address is answered as unavailable. -/
def Dead (rpc : Rpc σ α) (addr : String) : Prop :=
  ∀ i s, ∃ status, (rpc i addr s).2 = .error status ∧ status.code = .unavailable

/-- What an endpoint answers that is not the leader. A hint names the leader, the endpoint itself or
an address where nobody is. -/
inductive Deflects (rpc : Rpc σ α) (leader target : String) (status : Status) : Prop
  | unavailable (hcode : status.code = .unavailable)
  | deadlineExceeded (hcode : status.code = .deadlineExceeded)
  | notLeader (hcode : status.code = .failedPrecondition)
      (hhint : ∀ hint, status.leader = some hint → hint = leader ∨ hint = target ∨ Dead rpc hint)

/-- One address always answers; the other endpoints send the client on. -/
structure Led (rpc : Rpc σ α) (leader : String) (endpoints : List String) : Prop where
  answers : ∀ i s, ∃ response, (rpc i leader s).2 = .ok response
  others : ∀ target ∈ endpoints, target ≠ leader → ∀ i s,
    ∃ status, (rpc i target s).2 = .error status ∧ Deflects rpc leader target status

/-- The calls that note their targets. -/
def logged (rpc : Rpc σ α) : Rpc (σ × List String) α := fun i target s =>
  let r := rpc i target s.1
  ((r.1, s.2 ++ [target]), r.2)

theorem Dead.logged {rpc : Rpc σ α} {addr : String} (h : Dead rpc addr) :
  Dead (logged rpc) addr
  := fun i s => h i s.1

theorem Led.logged {rpc : Rpc σ α} {leader : String} {endpoints : List String}
    (h : Led rpc leader endpoints) :
  Led (logged rpc) leader endpoints
  where
  answers i s := h.answers i s.1
  others target htarget hne i s := by
    obtain ⟨status, herr, hdeflects⟩ := h.others target htarget hne i s.1
    refine ⟨status, herr, ?_⟩
    cases hdeflects with
    | unavailable hcode => exact .unavailable hcode
    | deadlineExceeded hcode => exact .deadlineExceeded hcode
    | notLeader hcode hhint =>
        apply Deflects.notLeader hcode
        intro hint hleader
        rcases hhint hint hleader with hhint | hhint | hhint
        · exact .inl hhint
        · exact .inr (.inl hhint)
        · exact .inr (.inr hhint.logged)

/-- After some calls, at most so many more end with a response of the leader. -/
def Reaches (leader : String) (calls : List String) (bound : ℕ)
    (r : (σ × List String) × Except Status α) : Prop :=
  ∃ t before response, r = ((t, calls ++ before ++ [leader]), .ok response)
    ∧ before.length < bound

namespace Reaches

variable {leader target : String} {calls : List String} {bound bound' : ℕ}
  {r : (σ × List String) × Except Status α}

theorem mono (h : Reaches leader calls bound r) (hle : bound ≤ bound') :
  Reaches leader calls bound' r
  := by
  obtain ⟨t, before, response, hr, hlt⟩ := h
  exact ⟨t, before, response, hr, Nat.lt_of_lt_of_le hlt hle⟩

/-- One call more. -/
theorem step (h : Reaches leader (calls ++ [target]) bound r) :
  Reaches leader calls (bound + 1) r
  := by
  obtain ⟨t, before, response, rfl, hlt⟩ := h
  refine ⟨t, target :: before, response, ?_, Nat.succ_lt_succ hlt⟩
  rw [List.append_assoc calls]
  rfl

end Reaches

/-! ### The client in Go -/

variable {status : Status}

namespace Client

variable {c : Client} {rpc : Rpc σ α} {leader : String}

/-- A context that is never done. -/
def uncancelled : ℕ → Option Status := fun _ => none

/-- An attempt that is answered. -/
theorem attempts_ok {left attempt idx : ℕ} {target : String} {lastErr : Option Status} {s : σ}
    {response : α} (h : (rpc attempt target s).2 = .ok response) :
  c.attempts uncancelled rpc (left + 1) attempt idx target lastErr s
    = ((rpc attempt target s).1, .ok response)
  := by
  rw [attempts, uncancelled]
  dsimp only
  rw [h]

/-- An attempt after which the client goes to the next endpoint. -/
theorem attempts_unavailable {left attempt idx : ℕ} {target : String} {lastErr : Option Status}
    {s : σ} (h : (rpc attempt target s).2 = .error status)
    (hcode : status.code = .unavailable ∨ status.code = .deadlineExceeded) :
  c.attempts uncancelled rpc (left + 1) attempt idx target lastErr s
    = c.attempts uncancelled rpc left (attempt + 1) ((idx + 1) % c.endpoints.length)
      (c.endpoints.getD ((idx + 1) % c.endpoints.length) "") (some status)
      (rpc attempt target s).1
  := by
  rw [attempts, uncancelled]
  dsimp only
  rw [h]
  rcases hcode with hcode | hcode <;> simp only [hcode]

/-- An attempt after which it goes to the next endpoint or to the address of a hint. -/
theorem attempts_deflected {left attempt idx : ℕ} {target : String} {lastErr : Option Status}
    {s : σ} (h : (rpc attempt target s).2 = .error status)
    (hdeflects : Deflects rpc leader target status) :
  c.attempts uncancelled rpc (left + 1) attempt idx target lastErr s
      = c.attempts uncancelled rpc left (attempt + 1) ((idx + 1) % c.endpoints.length)
        (c.endpoints.getD ((idx + 1) % c.endpoints.length) "") (some status)
        (rpc attempt target s).1
    ∨ ∃ hint, (hint = leader ∨ Dead rpc hint) ∧
      c.attempts uncancelled rpc (left + 1) attempt idx target lastErr s
        = c.attempts uncancelled rpc left (attempt + 1) idx hint (some status)
          (rpc attempt target s).1
  := by
  cases hdeflects with
  | unavailable hcode => exact .inl (attempts_unavailable h (.inl hcode))
  | deadlineExceeded hcode => exact .inl (attempts_unavailable h (.inr hcode))
  | notLeader hcode hhint =>
      rw [attempts, uncancelled]
      dsimp only
      rw [h]
      simp only [hcode]
      split
      · next hfollow =>
          obtain ⟨hne, hother⟩ := hfollow
          cases hleader : status.leader with
          | none =>
              rw [hleader] at hne
              exact absurd rfl hne
          | some hint =>
              rw [hleader, Option.getD_some] at hother
              refine .inr ⟨hint, ?_, rfl⟩
              rcases hhint hint hleader with hhint | hhint | hhint
              · exact .inl hhint
              · exact absurd hhint hother
              · exact .inr hhint
      · exact .inl rfl

/-- At the leader. -/
theorem reaches_leader (h : Led rpc leader c.endpoints) (left attempt idx : ℕ)
    (lastErr : Option Status) (s : σ) (calls : List String) :
  Reaches leader calls 1
    (c.attempts uncancelled (logged rpc) (left + 1) attempt idx leader lastErr (s, calls))
  := by
  obtain ⟨response, hok⟩ := h.logged.answers attempt (s, calls)
  rw [attempts_ok hok]
  refine ⟨(rpc attempt leader s).1, [], response, ?_, Nat.zero_lt_one⟩
  rw [List.append_nil]
  rfl

/-- With the leader `d` positions ahead, it takes two attempts for each endpoint before it: one to
call the endpoint, and one to follow its hint. -/
theorem reaches_ahead (h : Led rpc leader c.endpoints) {d idx : ℕ}
    (hleader : c.endpoints[idx + d]? = some leader) {left : ℕ} (hleft : 2 * d + 1 ≤ left)
    (attempt : ℕ) (lastErr : Option Status) (s : σ) (calls : List String) :
  Reaches leader calls (2 * d + 1) (c.attempts uncancelled (logged rpc) left attempt idx
    (c.endpoints.getD idx "") lastErr (s, calls))
  := by
  obtain ⟨left, rfl⟩ := Nat.exists_eq_add_of_le' (Nat.le_trans (Nat.le_add_left 1 _) hleft)
  induction d generalizing idx left attempt lastErr s calls with
  | zero =>
      rw [List.getD_eq_getElem?_getD, ← Nat.add_zero idx, hleader, Option.getD_some]
      exact reaches_leader h ..
  | succ d ih =>
      by_cases htarget : c.endpoints.getD idx "" = leader
      · rw [htarget]
        exact (reaches_leader h ..).mono (Nat.le_add_left ..)
      -- The next endpoint, once the client goes on to it.
      have hlt : idx + (d + 1) < c.endpoints.length := (List.getElem?_eq_some_iff.mp hleader).1
      have hnext : ∀ {left attempt lastErr s calls}, 2 * d + 1 ≤ left + 1 →
          Reaches leader calls (2 * d + 1) (c.attempts uncancelled (logged rpc) (left + 1) attempt
            ((idx + 1) % c.endpoints.length)
            (c.endpoints.getD ((idx + 1) % c.endpoints.length) "") lastErr (s, calls)) := by
        intro left attempt lastErr s calls hleft
        rw [Nat.mod_eq_of_lt (by omega)]
        apply ih _ _ _ _ _ _ hleft
        rw [← hleader]
        congr 1
        omega
      have hmem : c.endpoints.getD idx "" ∈ c.endpoints := by
        rw [List.getD_eq_getElem?_getD, List.getElem?_eq_getElem (by omega), Option.getD_some]
        exact List.getElem_mem _
      obtain ⟨status, herr, hdeflects⟩ := h.logged.others _ hmem htarget attempt (s, calls)
      obtain ⟨left, rfl⟩ : ∃ left', left = left' + 1 := ⟨left - 1, by omega⟩
      rcases attempts_deflected (c := c) herr hdeflects with heq | ⟨hint, hhint, heq⟩
      · rw [heq]
        exact (hnext (by omega)).step.mono (by omega)
      · rw [heq]
        rcases hhint with rfl | hdead
        · exact (reaches_leader h ..).step.mono (by omega)
        · -- Nobody is there, and the client goes on from the endpoint that gave the hint.
          obtain ⟨status', herr', hcode⟩ := hdead (attempt + 1) (logged rpc attempt _ (s, calls)).1
          rw [attempts_unavailable herr' (.inl hcode)]
          obtain ⟨left, rfl⟩ : ∃ left', left = left' + 1 := ⟨left - 1, by omega⟩
          exact (hnext (by omega)).step.step.mono (by omega)

/-- Noting the targets changes nothing else. -/
theorem attempts_logged (c : Client) (ctxErr : ℕ → Option Status) (rpc : Rpc σ α)
    (left attempt idx : ℕ) (target : String) (lastErr : Option Status) (s : σ)
    (calls : List String) :
  c.attempts ctxErr rpc left attempt idx target lastErr s
    = ((c.attempts ctxErr (logged rpc) left attempt idx target lastErr (s, calls)).1.1,
      (c.attempts ctxErr (logged rpc) left attempt idx target lastErr (s, calls)).2)
  := by
  induction left generalizing attempt idx target lastErr s calls with
  | zero => rfl
  | succ left ih =>
      simp only [attempts, logged]
      cases ctxErr attempt with
      | some err => rfl
      | none =>
          dsimp only
          cases (rpc attempt target s).2 with
          | ok response => rfl
          | error err =>
              dsimp only
              cases err.code with
              | failedPrecondition =>
                  dsimp only
                  split
                  · exact ih ..
                  · exact ih ..
              | unavailable => exact ih ..
              | deadlineExceeded => exact ih ..
              | other => rfl

/-- If the leader is at position `j` of the endpoints, `j` at most 19, the client gets its response,
and it does so with at most `2 * j + 1` attempts, the last of which is the call to the leader. -/
theorem do_reaches_leader (c : Client) (leader : String) (j : ℕ) (hj : j ≤ 19)
    (hleader : c.endpoints[j]? = some leader) (rpc : Rpc σ α) (h : Led rpc leader c.endpoints)
    (s : σ) :
  ∃ t before response, c.do uncancelled rpc s = (t, .ok response)
    ∧ c.do uncancelled (logged rpc) (s, []) = ((t, before ++ [leader]), .ok response)
    ∧ (before ++ [leader]).length ≤ 2 * j + 1
  := by
  cases hendpoints : c.endpoints with
  | nil =>
      rw [hendpoints] at hleader
      cases hleader
  | cons first rest =>
      have hfirst : c.endpoints.getD 0 "" = first := by
        rw [hendpoints]
        rfl
      rw [← Nat.zero_add j] at hleader
      obtain ⟨t, before, response, hreaches, hlt⟩ :=
        reaches_ahead h hleader (by omega : 2 * j + 1 ≤ 40) 0 none s []
      rw [hfirst, List.nil_append] at hreaches
      refine ⟨t, before, response, ?_, ?_, ?_⟩
      · simp only [Client.do, hendpoints]
        rw [attempts_logged _ _ _ _ _ _ _ _ _ [], hreaches]
      · simp only [Client.do, hendpoints]
        exact hreaches
      · rw [List.length_append, List.length_singleton]
        omega

end Client

/-- Of two nodes, the second one is the leader and the first one gives a hint. Nobody is anywhere
else. -/
def twoNodes (hint : String) : Rpc Unit Unit := fun _ target s =>
  if target = "n2" then (s, .ok ())
  else if target = "n1" then (s, .error ⟨.failedPrecondition, "not leader", some hint⟩)
  else (s, .error ⟨.unavailable, "", none⟩)

theorem twoNodes_led (hint : String) :
  Led (twoNodes hint) "n2" ["n1", "n2"]
  where
  answers i s := ⟨(), rfl⟩
  others target htarget hne i s := by
    have htarget : target = "n1" := by
      rcases List.mem_cons.mp htarget with htarget | htarget
      · exact htarget
      · exact absurd (List.mem_singleton.mp htarget) hne
    subst htarget
    refine ⟨_, rfl, .notLeader rfl ?_⟩
    rintro _ ⟨⟩
    by_cases hleader : hint = "n2"
    · exact .inl hleader
    by_cases hself : hint = "n1"
    · exact .inr (.inl hself)
    refine .inr (.inr fun i s => ⟨⟨.unavailable, "", none⟩, ?_, rfl⟩)
    simp only [twoNodes, if_neg hleader, if_neg hself]

namespace Client

/-- The client follows the hint in vain, and goes on to the second node. -/
theorem do_reaches_second :
  ∃ before response, (Client.mk ["n1", "n2"]).do uncancelled (logged (twoNodes "n3")) ((), [])
      = (((), before ++ ["n2"]), .ok response)
    ∧ (before ++ ["n2"]).length ≤ 2 * 1 + 1
  := by
  obtain ⟨⟨⟩, before, response, -, hlogged, hlength⟩ :=
    do_reaches_leader ⟨["n1", "n2"]⟩ "n2" 1 (by decide) rfl (twoNodes "n3")
      (twoNodes_led "n3") ()
  exact ⟨before, response, hlogged, hlength⟩

end Client

/-! ### The client in C++ -/

namespace ControlPlaneClient

variable {c : ControlPlaneClient} {rpc : Rpc σ α} {leader : String} {endpoints : List String}

/-- The endpoint that is called next. -/
def target (c : ControlPlaneClient) : String := c.endpoints.get ⟨c.currentIdx, c.lt⟩

theorem target_mem (c : ControlPlaneClient) :
  c.target ∈ c.endpoints
  := List.get_mem ..

theorem target_followLeader (c : ControlPlaneClient) (leaderAddr : String) :
  (c.followLeader leaderAddr).target = leaderAddr
  := by
  rw [followLeader]
  split
  · next hmem => exact List.getElem_idxOf (List.idxOf_lt_length_of_mem hmem)
  · simp only [target, List.get_eq_getElem, List.getElem_concat_length]

/-- An attempt that is answered. -/
theorem attempts_ok {left attempt : ℕ} {s : σ} {response : α}
    (h : (rpc attempt c.target s).2 = .ok response) :
  attempts rpc (left + 1) attempt c status s = (c, (rpc attempt c.target s).1, .ok response)
  := by
  rw [target] at h
  rw [attempts, h, target]

/-- Where an answer sends the client. -/
inductive Moves (c : ControlPlaneClient) (status : Status) : ControlPlaneClient → Prop
  | rotate : Moves c status c.rotateEndpoint
  | follow {hint : String} (hcode : status.code = .failedPrecondition)
      (hhint : status.leader = some hint) : Moves c status (c.followLeader hint)

theorem attempts_deflected {attempt : ℕ} {s : σ} (h : (rpc attempt c.target s).2 = .error status)
    (hdeflects : Deflects rpc leader c.target status) (left : ℕ) (status' : Status) :
  ∃ c', Moves c status c' ∧ attempts rpc (left + 1) attempt c status' s
    = attempts rpc left (attempt + 1) c' status (rpc attempt c.target s).1
  := by
  rw [target] at h
  rw [attempts, h, target]
  cases hdeflects with
  | unavailable hcode =>
      simp only [hcode]
      exact ⟨_, .rotate, rfl⟩
  | deadlineExceeded hcode =>
      simp only [hcode]
      exact ⟨_, .rotate, rfl⟩
  | notLeader hcode hhint =>
      simp only [hcode]
      cases hleader : status.leader with
      | none => exact ⟨_, .rotate, rfl⟩
      | some hint => exact ⟨_, .follow hcode hleader, rfl⟩

/-- The client knows the endpoints it was given, and addresses where nobody is. -/
structure Extends (rpc : Rpc σ α) (endpoints : List String) (c : ControlPlaneClient) : Prop where
  given : ∀ target ∈ endpoints, target ∈ c.endpoints
  others : ∀ target ∈ c.endpoints, target ∈ endpoints ∨ Dead rpc target

/-- What the next endpoint answers, if it is not the leader. -/
theorem Extends.answer (h : Extends rpc endpoints c) (hled : Led rpc leader endpoints)
    (hne : c.target ≠ leader) (i : ℕ) (s : σ) :
  ∃ status, (rpc i c.target s).2 = .error status ∧ Deflects rpc leader c.target status
    ∧ (status.code = .failedPrecondition → c.target ∈ endpoints)
  := by
  rcases h.others c.target c.target_mem with hmem | hdead
  · obtain ⟨status, herr, hdeflects⟩ := hled.others _ hmem hne i s
    exact ⟨status, herr, hdeflects, fun _ => hmem⟩
  · obtain ⟨status, herr, hcode⟩ := hdead i s
    refine ⟨status, herr, .unavailable hcode, ?_⟩
    intro hcode'
    rw [hcode] at hcode'
    cases hcode'

/-- The client learns at most one address. -/
theorem Extends.moves (h : Extends rpc endpoints c) (hleader : leader ∈ endpoints)
    {c' : ControlPlaneClient} (hdeflects : Deflects rpc leader c.target status)
    (hmoves : Moves c status c') :
  Extends rpc endpoints c' ∧ c'.endpoints.length ≤ c.endpoints.length + 1
  := by
  cases hmoves with
  | rotate => exact ⟨⟨h.given, h.others⟩, Nat.le_succ _⟩
  | @follow hint hcode hhint =>
      rw [followLeader]
      split
      · exact ⟨⟨h.given, h.others⟩, Nat.le_succ _⟩
      · next hnew =>
          have hdead : Dead rpc hint := by
            cases hdeflects with
            | unavailable hcode' =>
                rw [hcode] at hcode'
                cases hcode'
            | deadlineExceeded hcode' =>
                rw [hcode] at hcode'
                cases hcode'
            | notLeader _ hhints =>
                rcases hhints hint hhint with rfl | rfl | hdead
                · exact absurd (h.given _ hleader) hnew
                · exact absurd c.target_mem hnew
                · exact hdead
          refine ⟨⟨?_, ?_⟩, ?_⟩
          · intro target htarget
            exact List.mem_append_left _ (h.given target htarget)
          · intro target htarget
            rcases List.mem_append.mp htarget with htarget | htarget
            · exact h.others target htarget
            · rw [List.mem_singleton.mp htarget]
              exact .inr hdead
          · rw [List.length_append, List.length_singleton]

/-- From some attempt on, the endpoints give no hint but the leader. -/
def StopsMisleading (rpc : Rpc σ α) (leader : String) (endpoints : List String) (m : ℕ) : Prop :=
  ∀ i, m ≤ i → ∀ target ∈ endpoints, ∀ s status hint, (rpc i target s).2 = .error status →
    status.code = .failedPrecondition → status.leader = some hint → hint = leader

/-- At the leader. -/
theorem reaches_leader (hled : Led rpc leader endpoints) (htarget : c.target = leader)
    (left attempt : ℕ) (status : Status) (s : σ) (calls : List String) :
  Reaches leader calls 1 (attempts (logged rpc) (left + 1) attempt c status (s, calls)).2
  := by
  subst htarget
  obtain ⟨response, hok⟩ := hled.logged.answers attempt (s, calls)
  rw [attempts_ok hok]
  refine ⟨(rpc attempt c.target s).1, [], response, ?_, Nat.zero_lt_one⟩
  rw [List.append_nil]
  rfl

/-- The endpoint `k` positions ahead. -/
def ahead (c : ControlPlaneClient) (k : ℕ) : Option String :=
  c.endpoints[(c.currentIdx + k) % c.endpoints.length]?

theorem ahead_zero (c : ControlPlaneClient) :
  c.ahead 0 = some c.target
  := by
  rw [ahead, Nat.add_zero, Nat.mod_eq_of_lt c.lt]
  exact List.getElem?_eq_getElem c.lt

theorem ahead_rotateEndpoint (c : ControlPlaneClient) (k : ℕ) :
  c.rotateEndpoint.ahead k = c.ahead (k + 1)
  := by
  simp only [ahead, rotateEndpoint, Nat.mod_add_mod]
  congr 2
  omega

/-- Each endpoint is ahead. -/
theorem exists_ahead (h : leader ∈ c.endpoints) :
  ∃ k < c.endpoints.length, c.ahead k = some leader
  := by
  obtain ⟨p, hp⟩ := List.mem_iff_getElem?.mp h
  have hlt : p < c.endpoints.length := (List.getElem?_eq_some_iff.mp hp).1
  have hidx := c.lt
  refine ⟨(p + (c.endpoints.length - c.currentIdx)) % c.endpoints.length,
    Nat.mod_lt _ (Nat.zero_lt_of_lt hlt), ?_⟩
  have hsum : c.currentIdx + (p + (c.endpoints.length - c.currentIdx))
      = p + c.endpoints.length := by omega
  rw [ahead, Nat.add_mod_mod, hsum, Nat.add_mod_right, Nat.mod_eq_of_lt hlt, hp]

/-- Once the endpoints give no other hints, the client comes to the leader in the order of the
endpoints, if it is not sent there before. -/
theorem reaches_ahead (hled : Led rpc leader endpoints) (h : Extends (logged rpc) endpoints c)
    {m attempt : ℕ} (hstops : StopsMisleading rpc leader endpoints m) (hm : m ≤ attempt) {k : ℕ}
    (hahead : c.ahead k = some leader) {left : ℕ} (hleft : k ≤ left) (status : Status) (s : σ)
    (calls : List String) :
  Reaches leader calls (k + 1) (attempts (logged rpc) (left + 1) attempt c status (s, calls)).2
  := by
  induction k generalizing c attempt left status s calls with
  | zero =>
      rw [ahead_zero] at hahead
      exact reaches_leader hled (Option.some_inj.mp hahead) ..
  | succ k ih =>
      by_cases htarget : c.target = leader
      · exact (reaches_leader hled htarget ..).mono (by omega)
      obtain ⟨status', herr, hdeflects, hgiven⟩ := h.answer hled.logged htarget attempt (s, calls)
      obtain ⟨c', hmoves, heq⟩ := attempts_deflected herr hdeflects left status
      obtain ⟨left, rfl⟩ : ∃ left', left = left' + 1 := ⟨left - 1, by omega⟩
      rw [heq]
      cases hmoves with
      | rotate =>
          have h' : Extends (logged rpc) endpoints c.rotateEndpoint := ⟨h.given, h.others⟩
          rw [← ahead_rotateEndpoint] at hahead
          apply Reaches.step
          exact ih h' (Nat.le_succ_of_le hm) hahead (Nat.le_of_succ_le_succ hleft) ..
      | follow hcode hhint =>
          have hhint := hstops attempt hm c.target (hgiven hcode) s status' _ herr hcode hhint
          subst hhint
          exact (reaches_leader hled (target_followLeader ..) ..).step.mono (by omega)

/-- Until then it may learn an address at each attempt, and so need one more later. -/
theorem reaches_misled (hled : Led rpc leader endpoints) (hleader : leader ∈ endpoints) {m : ℕ}
    (hstops : StopsMisleading rpc leader endpoints m) (h : Extends (logged rpc) endpoints c)
    {attempt w : ℕ} (hw : m ≤ attempt + w) {left : ℕ}
    (hleft : 2 * w + c.endpoints.length ≤ left) (status : Status) (s : σ) (calls : List String) :
  Reaches leader calls (2 * w + c.endpoints.length)
    (attempts (logged rpc) left attempt c status (s, calls)).2
  := by
  have hpos := Nat.zero_lt_of_lt c.lt
  obtain ⟨left, rfl⟩ : ∃ left', left = left' + 1 := ⟨left - 1, by omega⟩
  induction w generalizing c attempt left status s calls with
  | zero =>
      obtain ⟨k, hk, hahead⟩ := exists_ahead (h.given leader hleader)
      exact (reaches_ahead hled h hstops hw hahead (by omega) ..).mono (by omega)
  | succ w ih =>
      by_cases htarget : c.target = leader
      · exact (reaches_leader hled htarget ..).mono (by omega)
      obtain ⟨status', herr, hdeflects, -⟩ := h.answer hled.logged htarget attempt (s, calls)
      obtain ⟨c', hmoves, heq⟩ := attempts_deflected herr hdeflects left status
      obtain ⟨h', hlength⟩ := h.moves hleader hdeflects hmoves
      obtain ⟨left, rfl⟩ : ∃ left', left = left' + 1 := ⟨left - 1, by omega⟩
      rw [heq]
      have hreaches := ih h' (by omega : m ≤ attempt + 1 + w) status' (rpc attempt c.target s).1
        (calls ++ [c.target]) (Nat.zero_lt_of_lt c'.lt) left (by omega)
      exact hreaches.step.mono (by omega)

/-- Noting the targets changes nothing else. -/
theorem attempts_logged (rpc : Rpc σ α) (left attempt : ℕ) (c : ControlPlaneClient)
    (status : Status) (s : σ) (calls : List String) :
  attempts rpc left attempt c status s
    = ((attempts (logged rpc) left attempt c status (s, calls)).1,
      (attempts (logged rpc) left attempt c status (s, calls)).2.1.1,
      (attempts (logged rpc) left attempt c status (s, calls)).2.2)
  := by
  induction left generalizing attempt c status s calls with
  | zero => rfl
  | succ left ih =>
      simp only [attempts, logged]
      cases (rpc attempt (c.endpoints.get ⟨c.currentIdx, c.lt⟩) s).2 with
      | ok response => rfl
      | error status' =>
          dsimp only
          cases status'.code with
          | failedPrecondition =>
              cases status'.leader with
              | none => exact ih ..
              | some leaderAddr => exact ih ..
          | unavailable => exact ih ..
          | deadlineExceeded => exact ih ..
          | other => rfl

/-- All endpoints but the leader name themselves. -/
def selfNaming (leader : String) (response : α) : Rpc σ α := fun _ target s =>
  if target = leader then (s, .ok response)
  else (s, .error ⟨.failedPrecondition, "not leader", some target⟩)

theorem selfNaming_led (leader : String) (response : α) (endpoints : List String) :
  Led (selfNaming leader response : Rpc σ α) leader endpoints
  where
  answers i s := ⟨response, by rw [selfNaming, if_pos rfl]⟩
  others target _ hne i s := by
    refine ⟨_, by rw [selfNaming, if_neg hne], .notLeader rfl ?_⟩
    rintro _ ⟨⟩
    exact .inr (.inl rfl)

/-- The client stays where it is. -/
theorem attempts_selfNaming (hne : c.target ≠ leader) (response : α) (left attempt : ℕ)
    (status : Status) (s : σ) :
  ∃ status', (attempts (selfNaming leader response) left attempt c status s).2.2 = .error status'
  := by
  induction left generalizing c attempt status s with
  | zero => exact ⟨status, rfl⟩
  | succ left ih =>
      have herr : (selfNaming leader response attempt c.target s).2
          = .error ⟨.failedPrecondition, "not leader", some c.target⟩ := by
        rw [selfNaming, if_neg hne]
      rw [target] at herr
      rw [attempts, herr]
      apply ih
      rw [target_followLeader]
      exact hne

/-- Whatever the other endpoints answer, the client gets the response of the leader, if and only if
it is the leader that it calls first. With `n` endpoints, if no hint after the first `m` attempts
names anything but the leader and `2 * m + n` is at most 12, it does so from anywhere, with at most
`2 * m + n` attempts, the last of which is the call to the leader. -/
theorem call_reaches_leader [Nonempty σ] [Nonempty α] (c : ControlPlaneClient) (leader : String)
    (hleader : leader ∈ c.endpoints) :
  ((∀ rpc : Rpc σ α, Led rpc leader c.endpoints → ∀ s, ∃ c' t before response,
      c.callWithFailover (logged rpc) (s, []) = (c', (t, before ++ [leader]), .ok response))
    ↔ c.target = leader)
    ∧ ∀ rpc : Rpc σ α, Led rpc leader c.endpoints → ∀ m, 2 * m + c.endpoints.length ≤ 12 →
      StopsMisleading rpc leader c.endpoints m → ∀ s, ∃ c' t before response,
        c.callWithFailover rpc s = (c', t, .ok response)
          ∧ c.callWithFailover (logged rpc) (s, []) = (c', (t, before ++ [leader]), .ok response)
          ∧ (before ++ [leader]).length ≤ 2 * m + c.endpoints.length
  := by
  refine ⟨⟨fun h => ?_, fun htarget rpc hled s => ?_⟩, fun rpc hled m hm hstops s => ?_⟩
  · by_contra hne
    obtain ⟨response⟩ := ‹Nonempty α›
    obtain ⟨s⟩ := ‹Nonempty σ›
    obtain ⟨c', t, before, response', hcall⟩ :=
      h (selfNaming leader response) (selfNaming_led leader response c.endpoints) s
    obtain ⟨status, herr⟩ := attempts_selfNaming hne response 12 0 ⟨.other, "", none⟩ s
    rw [callWithFailover] at hcall
    rw [attempts_logged _ _ _ _ _ _ [], hcall] at herr
    cases herr
  · obtain ⟨t, before, response, hreaches, -⟩ :=
      reaches_leader hled htarget 11 0 ⟨.other, "", none⟩ s []
    rw [List.nil_append] at hreaches
    refine ⟨(c.callWithFailover (logged rpc) (s, [])).1, t, before, response, ?_⟩
    rw [← hreaches]
    rfl
  · have hextends : Extends (logged rpc) c.endpoints c := ⟨fun _ h => h, fun _ h => .inl h⟩
    obtain ⟨t, before, response, hreaches, hlt⟩ :=
      reaches_misled hled hleader hstops hextends (by omega : m ≤ 0 + m) hm ⟨.other, "", none⟩ s []
    rw [List.nil_append] at hreaches
    refine ⟨(c.callWithFailover (logged rpc) (s, [])).1, t, before, response, ?_, ?_, ?_⟩
    · rw [callWithFailover, attempts_logged _ _ _ _ _ _ [], hreaches]
      rfl
    · rw [← hreaches]
      rfl
    · rw [List.length_append, List.length_singleton]
      omega

/-- The first of two nodes names the leader. -/
theorem call_reaches_named :
  let c : ControlPlaneClient := ⟨["n1", "n2"], 0, by decide⟩
  (∃ c' before response, c.callWithFailover (logged (twoNodes "n2")) ((), [])
        = (c', ((), before ++ ["n2"]), .ok response)
      ∧ (before ++ ["n2"]).length ≤ 2 * 0 + 2)
    ∧ ¬ ∀ rpc : Rpc Unit Unit, Led rpc "n2" c.endpoints → ∀ s, ∃ c' t before response,
      c.callWithFailover (logged rpc) (s, []) = (c', (t, before ++ ["n2"]), .ok response)
  := by
  intro c
  have hstops : StopsMisleading (twoNodes "n2") "n2" ["n1", "n2"] 0 := by
    intro i _ target htarget s status hint herr _ hhint
    rcases List.mem_cons.mp htarget with rfl | htarget
    · obtain rfl := Except.error.inj herr
      exact (Option.some_inj.mp hhint).symm
    · obtain rfl := List.mem_singleton.mp htarget
      cases herr
  obtain ⟨hiff, hreaches⟩ : _ ∧ ∀ rpc : Rpc Unit Unit, _ :=
    call_reaches_leader (σ := Unit) (α := Unit) c "n2" (by decide)
  obtain ⟨c', ⟨⟩, before, response, -, hlogged, hlength⟩ :=
    hreaches (twoNodes "n2") (twoNodes_led "n2") 0 (by decide) hstops ()
  refine ⟨⟨c', before, response, hlogged, hlength⟩, fun h => ?_⟩
  exact absurd (hiff.mp h) (by decide)

/-- The first of two nodes names itself, and the client stays there; or it names an address where
nobody is, and the client goes back and forth between the two. The second node is never called. -/
theorem call_misses_leader :
  let c : ControlPlaneClient := ⟨["n1", "n2"], 0, by decide⟩
  (Led (twoNodes "n1") "n2" c.endpoints
      ∧ (c.callWithFailover (logged (twoNodes "n1")) ((), [])).2
        = (((), List.replicate 12 "n1"), .error ⟨.failedPrecondition, "not leader", some "n1"⟩))
    ∧ Led (twoNodes "n3") "n2" c.endpoints
      ∧ (c.callWithFailover (logged (twoNodes "n3")) ((), [])).2
        = (((), (List.replicate 6 ["n1", "n3"]).flatten), .error ⟨.unavailable, "", none⟩)
  := by
  intro c
  exact ⟨⟨twoNodes_led "n1", by decide +kernel⟩, twoNodes_led "n3", by decide +kernel⟩

end ControlPlaneClient

end Replicated
