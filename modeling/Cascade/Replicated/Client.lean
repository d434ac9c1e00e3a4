import Cascade.Replicated.Server

/-!
# Clients that fail over

The models of `replicated/client.go`, and of `call_with_failover` in
`core/controlplane/control_plane_client.hpp`. Both send a request again, to the leader or to the
next endpoint, when a call fails with a status that says so. The servers are a state that a call
changes. If there is a response, it is the one to the last attempt, and all attempts before have
failed (`Retried`).
-/

namespace Replicated

/-- What an attempt, by its number, to call a target does, and what it returns. -/
abbrev Rpc (σ α : Type) : Type := ℕ → String → σ → σ × Except Status α

variable {σ α : Type}

/-- Attempts that failed, from one number and state to another. -/
inductive Retried (rpc : Rpc σ α) : ℕ → σ → ℕ → σ → Prop where
  | refl (i : ℕ) (s : σ) : Retried rpc i s i s
  | step {i j : ℕ} {s t : σ} (target : String) (status : Status)
      (hfail : (rpc i target s).2 = .error status)
      (hrest : Retried rpc (i + 1) (rpc i target s).1 j t) : Retried rpc i s j t

/-! ### The client of `cascadectl` -/

/-- The client in Go. -/
structure Client where
  endpoints : List String

namespace Client

/-- The loop of `do`, with a number of attempts left. The context is done when `ctxErr` has an error
for the number of the attempt. -/
def attempts (c : Client) (ctxErr : ℕ → Option Status) (rpc : Rpc σ α) :
    (left : ℕ) → (attempt idx : ℕ) → (target : String) → (lastErr : Option Status) → (s : σ) →
      σ × Except Status α
  | 0, _, _, _, lastErr, s => (s, .error (lastErr.getD ⟨.other, "", none⟩))
  | left + 1, attempt, idx, target, lastErr, s =>
      match ctxErr attempt with
      | some err => (s, .error (lastErr.getD err))
      | none =>
          let r := rpc attempt target s
          match r.2 with
          | .ok response => (r.1, .ok response)
          | .error err =>
              let hint := err.leader.getD ""
              let next := (idx + 1) % c.endpoints.length
              let rotated := c.endpoints.getD next ""
              match err.code with
              | .failedPrecondition =>
                  if hint ≠ "" ∧ hint ≠ target then
                    c.attempts ctxErr rpc left (attempt + 1) idx hint (some err) r.1
                  else c.attempts ctxErr rpc left (attempt + 1) next rotated (some err) r.1
              | .unavailable | .deadlineExceeded =>
                  c.attempts ctxErr rpc left (attempt + 1) next rotated (some err) r.1
              | .other => (r.1, .error err)

/-- The method `do`. -/
def «do» (c : Client) (ctxErr : ℕ → Option Status) (rpc : Rpc σ α) (s : σ) : σ × Except Status α :=
  match c.endpoints with
  | [] => (s, .error ⟨.other, "no endpoints configured", none⟩)
  | target :: _ => c.attempts ctxErr rpc 40 0 0 target none s

end Client

/-! ### The client of brokers -/

/-- The client in C++. It stays with the endpoint of the last call. -/
structure ControlPlaneClient where
  endpoints : List String
  currentIdx : ℕ
  lt : currentIdx < endpoints.length

namespace ControlPlaneClient

def rotateEndpoint (c : ControlPlaneClient) : ControlPlaneClient where
  endpoints := c.endpoints
  currentIdx := (c.currentIdx + 1) % c.endpoints.length
  lt := Nat.mod_lt _ (Nat.zero_lt_of_lt c.lt)

/-- Go to the endpoint of the leader, which is added if it is not known. -/
def followLeader (c : ControlPlaneClient) (leaderAddr : String) : ControlPlaneClient :=
  if h : leaderAddr ∈ c.endpoints then
    ⟨c.endpoints, c.endpoints.idxOf leaderAddr, List.idxOf_lt_length_of_mem h⟩
  else ⟨c.endpoints ++ [leaderAddr], c.endpoints.length, by simp⟩

/-- The loop of `call_with_failover`, with a number of attempts left. -/
def attempts (rpc : Rpc σ α) :
    (left : ℕ) → (attempt : ℕ) → (c : ControlPlaneClient) → (status : Status) → (s : σ) →
      ControlPlaneClient × σ × Except Status α
  | 0, _, c, status, s => (c, s, .error status)
  | left + 1, attempt, c, _, s =>
      let r := rpc attempt (c.endpoints.get ⟨c.currentIdx, c.lt⟩) s
      match r.2 with
      | .ok response => (c, r.1, .ok response)
      | .error status =>
          match status.code, status.leader with
          | .failedPrecondition, some leaderAddr =>
              attempts rpc left (attempt + 1) (c.followLeader leaderAddr) status r.1
          | .failedPrecondition, none | .unavailable, _ | .deadlineExceeded, _ =>
              attempts rpc left (attempt + 1) c.rotateEndpoint status r.1
          | .other, _ => (c, r.1, .error status)

def callWithFailover (c : ControlPlaneClient) (rpc : Rpc σ α) (s : σ) :
    ControlPlaneClient × σ × Except Status α :=
  attempts rpc 12 0 c ⟨.other, "", none⟩ s

end ControlPlaneClient

/-! ### Both clients -/

/-- A call through one of the clients. -/
inductive Caller where
  | go (client : Client) (ctxErr : ℕ → Option Status)
  | cpp (client : ControlPlaneClient)

def Caller.call (caller : Caller) (rpc : Rpc σ α) (s : σ) : σ × Except Status α :=
  match caller with
  | .go client ctxErr => client.do ctxErr rpc s
  | .cpp client => (client.callWithFailover rpc s).2

variable {rpc : Rpc σ α} {s t : σ} {response : α}

/-- The response is the one to the last attempt. -/
theorem Client.retried_of_attempts {c : Client} {ctxErr : ℕ → Option Status}
    {left attempt idx : ℕ} {target : String} {lastErr : Option Status}
    (h : c.attempts ctxErr rpc left attempt idx target lastErr s = (t, .ok response)) :
  ∃ i target' u, Retried rpc attempt s i u ∧ rpc i target' u = (t, .ok response)
  := by
  induction left generalizing attempt idx target lastErr s with
  | zero => cases h
  | succ left ih =>
      rw [Client.attempts] at h
      split at h
      · cases h
      · dsimp only at h
        split at h
        · rename_i response' hok
          obtain ⟨rfl, hresponse⟩ := Prod.mk.inj h
          exact ⟨attempt, target, s, .refl attempt s, Prod.ext rfl (hok.trans hresponse)⟩
        · rename_i err herr
          -- However it goes on, this attempt has failed.
          have hstep : ∀ {idx' target'},
              c.attempts ctxErr rpc left (attempt + 1) idx' target' (some err)
                (rpc attempt target s).1 = (t, .ok response) →
              ∃ i target' u, Retried rpc attempt s i u ∧ rpc i target' u = (t, .ok response) := by
            intro idx' target' hrest
            obtain ⟨i, target'', u, hretried, hok⟩ := ih hrest
            exact ⟨i, target'', u, .step target err herr hretried, hok⟩
          split at h
          · split at h
            · exact hstep h
            · exact hstep h
          · exact hstep h
          · exact hstep h
          · cases h

theorem ControlPlaneClient.retried_of_attempts {c : ControlPlaneClient} {left attempt : ℕ}
    {status : Status}
    (h : (ControlPlaneClient.attempts rpc left attempt c status s).2 = (t, .ok response)) :
  ∃ i target u, Retried rpc attempt s i u ∧ rpc i target u = (t, .ok response)
  := by
  induction left generalizing attempt c status s with
  | zero => cases h
  | succ left ih =>
      rw [ControlPlaneClient.attempts] at h
      split at h
      · rename_i response' hok
        obtain ⟨rfl, hresponse⟩ := Prod.mk.inj h
        exact ⟨attempt, _, s, .refl attempt s, Prod.ext rfl (hok.trans hresponse)⟩
      · rename_i status' herr
        have hstep : ∀ {c' : ControlPlaneClient},
            (ControlPlaneClient.attempts rpc left (attempt + 1) c' status'
              (rpc attempt (c.endpoints.get ⟨c.currentIdx, c.lt⟩) s).1).2 = (t, .ok response) →
            ∃ i target u, Retried rpc attempt s i u ∧ rpc i target u = (t, .ok response) := by
          intro c' hrest
          obtain ⟨i, target, u, hretried, hok⟩ := ih hrest
          exact ⟨i, target, u, .step _ status' herr hretried, hok⟩
        split at h
        · exact hstep h
        · exact hstep h
        · exact hstep h
        · exact hstep h
        · cases h

/-- If a call returns a response, it is the one to the last attempt. -/
theorem Caller.retried_of_call {caller : Caller} (h : caller.call rpc s = (t, .ok response)) :
  ∃ i target u, Retried rpc 0 s i u ∧ rpc i target u = (t, .ok response)
  := by
  cases caller with
  | go client ctxErr =>
      rw [Caller.call, Client.do] at h
      split at h
      · cases h
      · exact Client.retried_of_attempts h
  | cpp client => exact ControlPlaneClient.retried_of_attempts h

end Replicated
