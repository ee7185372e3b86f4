import Mathlib.Data.List.Basic
import Mathlib.Logic.Function.Basic

/-!
# `OfConfig.Lib.Rpc`: requests and replies over byte streams

Clients that send a request and wait for the reply, each on a connection of its
own, and a server that takes one message at a time from any of them. Both ends
are functions on bytes (`Protocol`). How the bytes arrive is not up to them: `ω`
says it for each message. An end that asks for more bytes than there are waits
for them. For the server that means that nobody is served any more
(`Net.Step.block`).

`Carries` is what ties the functions to a handler of whole requests. Under it,
`Net.run_linear` shows that a run, whatever its interleaving, is one of the
handler: the server has executed a sequence of requests one after the other, and
every client has got the replies to its own requests, each one once and in
order. `Linear.answer` adds that nobody waits for good, and `Linear.free` that
the server never waits for bytes at all.
-/

set_option autoImplicit false

namespace OfConfig.Lib.Rpc

/-! ### The two ends -/

/-- The two ends of connections `κ` for requests `ρ` and results `α`. The server
answers a message with bytes and says whether it hangs up; `none` is undefined
behaviour. Both ends return the bytes they have not taken. -/
structure Protocol (κ ρ α σ β ω : Type) where
  send : ρ → List β
  serve : κ → ω → List β → σ → Option ((List β × Bool) × σ) × List β
  receive : ρ → ω → List β → α × List β
  /-- Does the server ask for more than these bytes? -/
  serveWaits : κ → ω → List β → σ → Bool
  /-- Does the client ask for more than these bytes? -/
  receiveWaits : ρ → ω → List β → Bool

/-- A handler of whole requests, with the bytes of its replies `τ` and what a
client makes of them. -/
structure Handler (κ ρ α σ β τ : Type) where
  handle : κ → ρ → σ → τ × σ
  reply : τ → List β
  hangsUp : ρ → Bool
  view : ρ → τ → α

/-- What is assumed of the requests and of how their bytes arrive. -/
structure Channel (ρ β ω : Type) where
  Valid : ρ → Prop
  Arrives : ρ → ω → Prop
  Returns : ρ → List β → ω → Prop

variable {κ ρ α σ β ω τ : Type}

/-- The bytes carry the requests and the replies of the handler. -/
structure Carries (P : Protocol κ ρ α σ β ω) (H : Handler κ ρ α σ β τ) (C : Channel ρ β ω) :
    Prop where
  send_ne : ∀ r, P.send r ≠ []
  serve_send : ∀ c w r s, C.Valid r → C.Arrives r w →
    P.serve c w (P.send r) s =
      (some ((H.reply (H.handle c r s).1, H.hangsUp r), (H.handle c r s).2), [])
  serve_ready : ∀ c w r s, C.Valid r → C.Arrives r w → P.serveWaits c w (P.send r) s = false
  receive_reply : ∀ c w r s, C.Valid r → C.Returns r (H.reply (H.handle c r s).1) w →
    P.receive r w (H.reply (H.handle c r s).1) = (H.view r (H.handle c r s).1, [])
  receive_ready : ∀ c w r s, C.Valid r → C.Returns r (H.reply (H.handle c r s).1) w →
    P.receiveWaits r w (H.reply (H.handle c r s).1) = false ∨ H.hangsUp r = true
  reply_ne : ∀ c r s, C.Valid r → H.reply (H.handle c r s).1 ≠ [] ∨ H.hangsUp r = true

/-! ### The system -/

/-- The server, the bytes on the way, the requests that wait for a reply, and
the results the clients have got. The server may be blocked in a read on a
connection. -/
structure Net (κ ρ α σ β : Type) where
  srv : σ
  up : κ → List β
  down : κ → List β
  closed : κ → Bool
  waiting : κ → Option ρ
  log : List (κ × ρ × α)
  crashed : Bool
  blocked : Option κ

/-- Nothing is on the way. -/
def Net.start (s : σ) : Net κ ρ α σ β where
  srv := s
  up _ := []
  down _ := []
  closed _ := false
  waiting _ := none
  log := []
  crashed := false
  blocked := none

variable [DecidableEq κ]

/-- The system after the server has taken a message. -/
def Net.served (n : Net κ ρ α σ β) (c : κ) (r : Option ((List β × Bool) × σ) × List β) :
    Net κ ρ α σ β :=
  match r.1 with
  | none => { n with crashed := true }
  | some ((out, bye), s) =>
    { n with srv := s, up := Function.update n.up c r.2,
             down := Function.update n.down c (n.down c ++ out),
             closed := Function.update n.closed c bye }

/-- A step of a client or of the server. -/
inductive Net.Step (P : Protocol κ ρ α σ β ω) (C : Channel ρ β ω) :
    Net κ ρ α σ β → Net κ ρ α σ β → Prop where
  /-- A client sends a request. -/
  | ask {n : Net κ ρ α σ β} {c : κ} {r : ρ} (hidle : n.waiting c = none)
      (hopen : n.closed c = false) (hr : C.Valid r) :
      Step P C n { n with up := Function.update n.up c (n.up c ++ P.send r),
                          waiting := Function.update n.waiting c (some r) }
  /-- The server takes a message, all of which is there. -/
  | serve {n : Net κ ρ α σ β} {c : κ} {w : ω} (hup : n.up c ≠ []) (hopen : n.closed c = false)
      (hw : ∀ r, n.waiting c = some r → C.Arrives r w) (hfree : n.blocked = none)
      (hready : P.serveWaits c w (n.up c) n.srv = false) :
      Step P C n (n.served c (P.serve c w (n.up c) n.srv))
  /-- The server begins with a message and asks for more than there is. -/
  | block {n : Net κ ρ α σ β} {c : κ} {w : ω} (hup : n.up c ≠ []) (hopen : n.closed c = false)
      (hw : ∀ r, n.waiting c = some r → C.Arrives r w) (hfree : n.blocked = none)
      (hwaits : P.serveWaits c w (n.up c) n.srv = true) :
      Step P C n { n with blocked := some c }
  /-- A client takes the reply, all of which is there, or finds the connection
  closed. -/
  | receive {n : Net κ ρ α σ β} {c : κ} {w : ω} {r : ρ} (hr : n.waiting c = some r)
      (hdown : n.down c ≠ [] ∨ n.closed c = true) (hw : C.Returns r (n.down c) w)
      (hready : P.receiveWaits r w (n.down c) = false ∨ n.closed c = true) :
      Step P C n { n with down := Function.update n.down c (P.receive r w (n.down c)).2,
                          waiting := Function.update n.waiting c none,
                          log := n.log ++ [(c, r, (P.receive r w (n.down c)).1)] }

/-- A run, in any order of steps. -/
inductive Net.Run (P : Protocol κ ρ α σ β ω) (C : Channel ρ β ω) (n₀ : Net κ ρ α σ β) :
    Net κ ρ α σ β → Prop where
  | start : Run P C n₀ n₀
  | step {n n' : Net κ ρ α σ β} (h : Run P C n₀ n) (hs : Net.Step P C n n') : Run P C n₀ n'

/-! ### Histories -/

/-- The requests were executed one after the other, with these replies. -/
inductive Executes (H : Handler κ ρ α σ β τ) (s₀ : σ) : List (κ × ρ × τ) → σ → Prop where
  | nil : Executes H s₀ [] s₀
  | snoc {hist : List (κ × ρ × τ)} {s : σ} (h : Executes H s₀ hist s) (c : κ) (r : ρ) :
      Executes H s₀ (hist ++ [(c, r, (H.handle c r s).1)]) (H.handle c r s).2

/-- What a client should see of a history: its own requests, with their
results. -/
def seen (H : Handler κ ρ α σ β τ) (hist : List (κ × ρ × τ)) (c : κ) : List (ρ × α) :=
  (hist.filter (·.1 = c)).map fun e => (e.2.1, H.view e.2.1 e.2.2)

/-- The results a client has got. -/
def Net.got (n : Net κ ρ α σ β) (c : κ) : List (ρ × α) :=
  (n.log.filter (·.1 = c)).map Prod.snd

theorem append_filter_map {ε δ : Type} (f : κ × ε → δ) (l : List (κ × ε))
    (c c' : κ) (e : ε) :
    ((l ++ [(c, e)]).filter (·.1 = c')).map f =
      (l.filter (·.1 = c')).map f ++ if c = c' then [f (c, e)] else [] := by
  by_cases h : c = c' <;> simp [List.filter_append, h]

/-! ### A connection -/

/-- Where a connection stands: nothing is on the way, a request is, or a reply
is. -/
inductive Stands (P : Protocol κ ρ α σ β ω) (H : Handler κ ρ α σ β τ) (C : Channel ρ β ω)
    (hist : List (κ × ρ × τ)) (n : Net κ ρ α σ β) (c : κ) : Prop where
  | idle (hw : n.waiting c = none) (hup : n.up c = []) (hdown : n.down c = [])
      (hgot : n.got c = seen H hist c)
  | asked {r : ρ} (hr : C.Valid r) (hw : n.waiting c = some r) (hup : n.up c = P.send r)
      (hdown : n.down c = []) (hopen : n.closed c = false) (hgot : n.got c = seen H hist c)
  | answered {r : ρ} {s : σ} (hr : C.Valid r) (hw : n.waiting c = some r) (hup : n.up c = [])
      (hdown : n.down c = H.reply (H.handle c r s).1) (hclosed : n.closed c = H.hangsUp r)
      (hgot : n.got c ++ [(r, H.view r (H.handle c r s).1)] = seen H hist c)

variable {P : Protocol κ ρ α σ β ω} {H : Handler κ ρ α σ β τ} {C : Channel ρ β ω}
  {hist hist' : List (κ × ρ × τ)} {n n' n₀ : Net κ ρ α σ β} {c c' : κ} {s₀ : σ}

/-- What happens on another connection does not matter. -/
theorem Stands.congr (h : Stands P H C hist n c) (hw : n'.waiting c = n.waiting c)
    (hup : n'.up c = n.up c) (hdown : n'.down c = n.down c) (hclosed : n'.closed c = n.closed c)
    (hgot : n'.got c = n.got c) (hseen : seen H hist' c = seen H hist c) :
    Stands P H C hist' n' c := by
  cases h with
  | idle h₁ h₂ h₃ h₄ =>
    exact .idle (hw.trans h₁) (hup.trans h₂) (hdown.trans h₃) (by rw [hgot, h₄, hseen])
  | asked hr h₁ h₂ h₃ h₄ h₅ =>
    exact .asked hr (hw.trans h₁) (hup.trans h₂) (hdown.trans h₃) (hclosed.trans h₄)
      (by rw [hgot, h₅, hseen])
  | answered hr h₁ h₂ h₃ h₄ h₅ =>
    exact .answered hr (hw.trans h₁) (hup.trans h₂) (hdown.trans h₃) (hclosed.trans h₄)
      (by rw [hgot, h₅, hseen])

/-- The server has executed the history, and every connection stands in it
somewhere. -/
structure Linear (P : Protocol κ ρ α σ β ω) (H : Handler κ ρ α σ β τ) (C : Channel ρ β ω) (s₀ : σ)
    (hist : List (κ × ρ × τ)) (n : Net κ ρ α σ β) : Prop where
  executes : Executes H s₀ hist n.srv
  stands : ∀ c, Stands P H C hist n c
  alive : n.crashed = false
  free : n.blocked = none

theorem linear_start : Linear P H C s₀ [] (Net.start s₀) where
  executes := .nil
  stands _ := .idle rfl rfl rfl rfl
  alive := rfl
  free := rfl

/-- Every step keeps to a history. -/
theorem Linear.step (hcarries : Carries P H C) (h : Linear P H C s₀ hist n)
    (hs : Net.Step P C n n') : ∃ hist', Linear P H C s₀ hist' n' := by
  cases hs with
  | @ask c r hidle hopen hr =>
    refine ⟨hist, h.executes, fun c' => ?_, h.alive, h.free⟩
    by_cases hc : c' = c
    · subst hc
      cases h.stands c' with
      | idle _ hup hdown hgot =>
        exact .asked hr (by simp) (by simp [hup]) hdown hopen hgot
      | asked _ hw => simp [hw] at hidle
      | answered _ hw => simp [hw] at hidle
    · exact (h.stands c').congr (by simp [hc]) (by simp [hc]) rfl rfl rfl rfl
  | @serve c w hup hopen hw _ _ =>
    cases h.stands c with
    | idle _ hup' => exact absurd hup' hup
    | answered _ _ hup' => exact absurd hup' hup
    | @asked r hr hwait hup' hdown _ hgot =>
      have hserve := hcarries.serve_send c w r n.srv hr (hw r hwait)
      rw [hup', hserve]
      refine ⟨hist ++ [(c, r, (H.handle c r n.srv).1)], h.executes.snoc c r, fun c' => ?_,
        h.alive, h.free⟩
      by_cases hc : c' = c
      · subst hc
        refine .answered (s := n.srv) hr hwait (by simp [Net.served])
          (by simp [Net.served, hdown]) (by simp [Net.served]) ?_
        rw [seen, append_filter_map, if_pos rfl]
        exact congrArg (· ++ _) hgot
      · refine (h.stands c').congr rfl (by simp [Net.served, hc]) (by simp [Net.served, hc])
          (by simp [Net.served, hc]) rfl ?_
        rw [seen, append_filter_map, if_neg (Ne.symm hc), List.append_nil]
        rfl
  | @block c w hup _ hw _ hwaits =>
    -- only a whole message can be there, and the server does not ask for more
    cases h.stands c with
    | idle _ hup' => exact absurd hup' hup
    | answered _ _ hup' => exact absurd hup' hup
    | @asked r hr hwait hup' =>
      have hready := hcarries.serve_ready c w r n.srv hr (hw r hwait)
      rw [hup', hready] at hwaits
      simp at hwaits
  | @receive c w r hwait hdown hw _ =>
    refine ⟨hist, h.executes, fun c' => ?_, h.alive, h.free⟩
    by_cases hc : c' = c
    · subst hc
      cases h.stands c' with
      | idle hwait' => simp [hwait'] at hwait
      | asked _ _ _ hdown' hopen =>
        rcases hdown with hne | hclosed
        · exact absurd hdown' hne
        · simp [hopen] at hclosed
      | @answered r' s hr hwait' hup hdown' _ hgot =>
        obtain rfl : r' = r := Option.some.inj (hwait'.symm.trans hwait)
        rw [hdown'] at hw
        have hrecv := hcarries.receive_reply c' w r' s hr hw
        rw [hdown', hrecv]
        refine .idle (by simp) hup (by simp) ?_
        rw [← hgot, Net.got, append_filter_map, if_pos rfl]
        rfl
    · refine (h.stands c').congr (by simp [hc]) rfl (by simp [hc]) rfl ?_ rfl
      rw [Net.got, append_filter_map, if_neg (Ne.symm hc), List.append_nil]
      rfl

/-- Every run is one of the handler. -/
theorem Net.run_linear (hcarries : Carries P H C) (h : Net.Run P C (Net.start s₀) n) :
    ∃ hist, Linear P H C s₀ hist n := by
  induction h with
  | start => exact ⟨[], linear_start⟩
  | step _ hs ih =>
    obtain ⟨hist, hlinear⟩ := ih
    exact hlinear.step hcarries hs

/-- Nobody waits for good: some steps bring the reply. Neither end asks for more
bytes in them than the other one has sent. -/
theorem Linear.answer (hcarries : Carries P H C) (h : Linear P H C s₀ hist n) {r : ρ}
    (hw : n.waiting c = some r) (harrives : ∀ r, ∃ w, C.Arrives r w)
    (hreturns : ∀ r bs, ∃ w, C.Returns r bs w) :
    ∃ n', Net.Run P C n n' ∧ n'.waiting c = none := by
  -- the last step, once there is a reply
  have hlast : ∀ (m : Net κ ρ α σ β) hist', Linear P H C s₀ hist' m → m.waiting c = some r →
      m.up c = [] → ∃ m', Net.Step P C m m' ∧ m'.waiting c = none := by
    intro m hist' hm hmw hmup
    cases hm.stands c with
    | idle hnone => simp [hnone] at hmw
    | @asked r' _ _ hup => exact absurd (hup.symm.trans hmup) (hcarries.send_ne r')
    | @answered r' s hr hw' _ hdown hclosed =>
      obtain rfl : r' = r := Option.some.inj (hw'.symm.trans hmw)
      obtain ⟨w, hret⟩ := hreturns r' (m.down c)
      have hready := hcarries.receive_ready c w r' s hr (hdown ▸ hret)
      refine ⟨_, .receive hmw ?_ hret ?_, by simp⟩
      · rw [hdown, hclosed]
        exact hcarries.reply_ne c r' s hr
      · rwa [hdown, hclosed]
  cases h.stands c with
  | idle hnone => simp [hnone] at hw
  | answered _ _ hup =>
    obtain ⟨m, hstep, hm⟩ := hlast n hist h hw hup
    exact ⟨m, .step .start hstep, hm⟩
  | @asked r' hr hw' hup hdown hopen =>
    obtain rfl : r' = r := Option.some.inj (hw'.symm.trans hw)
    obtain ⟨w, harr⟩ := harrives r'
    have hstep : Net.Step P C n (n.served c (P.serve c w (n.up c) n.srv)) := by
      refine .serve (by rw [hup]; exact hcarries.send_ne r') hopen (fun r hr' => ?_) h.free ?_
      · rwa [← Option.some.inj (hw.symm.trans hr')]
      · rw [hup]
        exact hcarries.serve_ready c w r' n.srv hr harr
    obtain ⟨hist', hlinear⟩ := h.step hcarries hstep
    have hserve := hcarries.serve_send c w r' n.srv hr harr
    rw [hup, hserve] at hstep hlinear
    obtain ⟨m, hstep', hm⟩ := hlast _ hist' hlinear hw (by simp [Net.served])
    exact ⟨m, .step (.step .start hstep) hstep', hm⟩

/-- A client has got a first part of the results that are due to it, and all of
them when it does not wait. -/
theorem Linear.got_prefix (h : Linear P H C s₀ hist n) (c : κ) :
    n.got c <+: seen H hist c ∧
      (n.waiting c = none → n.got c = seen H hist c ∧ n.up c = [] ∧ n.down c = []) := by
  cases h.stands c with
  | idle hw hup hdown hgot => exact ⟨hgot ▸ List.prefix_refl _, fun _ => ⟨hgot, hup, hdown⟩⟩
  | asked _ hw _ _ _ hgot => exact ⟨hgot ▸ List.prefix_refl _, fun hnone => by simp [hw] at hnone⟩
  | answered _ hw _ _ _ hgot =>
    exact ⟨hgot ▸ List.prefix_append _ _, fun hnone => by simp [hw] at hnone⟩

end OfConfig.Lib.Rpc
