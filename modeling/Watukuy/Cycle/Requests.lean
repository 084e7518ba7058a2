import Watukuy.Cycle.Drains
import Watukuy.Cycle.Contract

/-!
# A cycle's requests keep to the contract

The calls of the dispatcher change nothing but two readings of the view (`Settled`). A request of a
fetch function leaves the cycle as it was but for the note of a 304 (`Exchange`), and what it
resolves to is what the response settles.
-/

set_option autoImplicit false

namespace Watukuy

open Library Task

variable {ι : Type} {d : Deployment ι} {extra : CycleView ι → StoreOp ι → Prop}

/-! ## Calls that leave a cycle alone -/

/-- The view with other readings of the keeper, of the signal and of a drain's `halted`. -/
def CycleView.settle (v : CycleView ι) (guarded aborted halted : Bool) : CycleView ι :=
  { v with guarded, aborted, halted }

/-- Only those readings have changed. -/
def Settled (v w : CycleView ι) : Prop :=
  ∃ g a h, w = v.settle g a h ∧ (v.streamed.isSome → h = v.halted)

theorem Settled.refl (v : CycleView ι) : Settled v v :=
  ⟨v.guarded, v.aborted, v.halted, rfl, fun _ => rfl⟩

theorem drainCall_allowed (v : CycleView ι) {o : Op ι} (h : DrainCall o) :
    (cycleContract d extra).allow v o := by
  cases o with
  | store o =>
    refine Or.inl ?_
    cases o <;> trivial
  | _ => trivial

theorem drainCall_settled {v w : CycleView ι} (hw : Settled v w) {o : Op ι} (h : DrainCall o)
    (a : Ans o) : Settled v ((cycleContract d extra).learn w o a) := by
  obtain ⟨g, ab, ha, rfl, hs⟩ := hw
  cases o with
  | store o => cases o <;> first | exact ⟨g, ab, ha, rfl, hs⟩ | exact h.elim
  | signal run => exact ⟨_, _, ha, rfl, hs⟩
  | keeperStopped run => exact ⟨_, ab, ha, rfl, hs⟩
  | peekDrain drain =>
    refine ⟨g, ab, _, rfl, fun hv => ?_⟩
    rw [CycleView.settle, if_pos hv]
    exact hs hv
  | _ => first | exact ⟨g, ab, ha, rfl, hs⟩ | exact h.elim

theorem settled_keeps {α : Type} {m : Proc ι α} (hm : m.Uses DrainCall) {v : CycleView ι}
    {Q : α → CycleView ι → Prop} {E : JsError → CycleView ι → Prop}
    (hQ : ∀ a w, Settled v w → Q a w) (hE : ∀ e w, Settled v w → E e w) :
    m.wp (cycleContract d extra) Q E v :=
  hm.wp_inv (I := Settled v)
    (fun w _ hw h => ⟨drainCall_allowed w h, drainCall_settled hw h⟩) hQ hE (.refl v)

section Http

variable {v : CycleView ι} {E : JsError → CycleView ι → Prop}

theorem now_keeps {Q : Int → CycleView ι → Prop} (hQ : ∀ t, Q t v) :
    (now : Proc ι Int).wp (cycleContract d extra) Q E v :=
  (wp_now (C := cycleContract d extra) Q E).2 ⟨trivial, hQ⟩

theorem throwIfAborted_keeps {run : Nat} {Q : Unit → CycleView ι → Prop}
    (hQ : Q () (v.read false)) (hE : ∀ e, E e (v.read true)) :
    (throwIfAborted run).wp (cycleContract d extra) Q E v := by
  unfold throwIfAborted
  rw [Task.wp_bind, wp_call]
  refine ⟨trivial, fun r => ?_⟩
  cases r with
  | none => exact hQ
  | some e => exact hE e

variable {σ : Type} {h : HttpClientDeps σ} {r : HttpRequest}
  {k : Except JsError HttpResponse → UserCode ι}

theorem loadValidator_keeps (hcode : v.code = .request r k)
    {Q : Option Validator → CycleView ι → Prop} (hQ : ∀ x, Q x { v with validator := x }) :
    (loadValidator (d.crypto.hashUrl r.url)).wp (cycleContract d extra) Q E v := by
  unfold loadValidator
  rw [Task.wp_bind, wp_attempt, wp_store]
  exact ⟨Or.inl ⟨r, k, hcode, rfl⟩, hQ, fun _ => hQ none⟩

/-- The wire request carries the conditional headers of the validator the view records. -/
theorem prepareRequest_keeps (hcrypto : h.crypto = d.crypto) (hcode : v.code = .request r k)
    (hv : v.validator = none) {Q : WireRequest → CycleView ι → Prop}
    (hQ : ∀ x, Q (wireRequest r x) { v.read false with validator := x })
    (hE : ∀ e a, E e (v.read a)) :
    (prepareRequest h r).wp (cycleContract d extra) Q E v := by
  unfold prepareRequest
  simp only [Task.wp_bind]
  refine throwIfAborted_keeps ?_ fun e => hE e true
  have hwire : (if usesValidators r then (do
      let stored ← loadValidator (h.crypto.hashUrl r.url)
      return wireRequest r stored) else return wireRequest r none).wp (cycleContract d extra) Q E
        (v.read false) := by
    rw [wp_ite]
    refine ⟨fun _ => ?_, fun _ => ?_⟩
    · rw [Task.wp_bind, hcrypto]
      exact loadValidator_keeps (v := v.read false) hcode hQ
    · have hnone := hQ none
      have hsame : { v.read false with validator := none } = v.read false := by
        rw [← hv]
        rfl
      rw [hsame] at hnone
      rw [← hv] at hnone ⊢
      exact hnone
  rw [wp_when]
  refine ⟨fun _ => ?_, fun _ => hwire⟩
  rw [wp_request]
  exact ⟨trivial, fun _ => ⟨fun _ _ => hwire, fun e _ => hE e false⟩⟩

/-- Only what a request notes in the variables of the cycle has changed. -/
structure Noted (s s' : CycleLocals) (w : CycleView ι) : Prop where
  locals : s' = { s with sawNotModified := s'.sawNotModified, lastRateLimit := s'.lastRateLimit }
  notModified : s'.sawNotModified = w.notModified

variable {c : Cycle ι} {s : CycleLocals} {F : JsError → CycleLocals → CycleView ι → Prop}

theorem sendRequest_keeps (hcode : v.code = .request r k) (hresponse : v.response = none)
    (hs : s.sawNotModified = v.notModified)
    {Q : RawResponse × Option RateLimitInfo → CycleLocals → CycleView ι → Prop}
    (hQ : ∀ raw rl s' w,
      w = { v with response := some raw, notModified := v.notModified || raw.status == 304 } →
      Noted s s' w → Q (raw, rl) s' w)
    (hF : ∀ e, F e s v) :
    Block.wp (cycleContract d extra) (sendRequest c.http (wireRequest r v.validator)) Q F s v := by
  unfold sendRequest
  simp only [Block.wp_bind, Block.wp_await]
  rw [wp_request]
  refine ⟨⟨hresponse, r, k, hcode, rfl⟩, fun a => ⟨?_, ?_⟩⟩
  · rintro raw rfl
    rw [Block.wp_when]
    refine ⟨fun h304 => now_keeps fun t => ?_, fun h304 => now_keeps fun t => ?_⟩
    · have hnoted : (true : Bool) = (v.notModified || raw.status == 304) := by simp [h304]
      rw [Block.wp_forSome]
      exact ⟨fun info _ => hQ _ _ _ _ rfl ⟨rfl, hnoted⟩, fun _ => hQ _ _ _ _ rfl ⟨rfl, hnoted⟩⟩
    · have hnoted : s.sawNotModified = (v.notModified || raw.status == 304) := by simp [h304, hs]
      rw [Block.wp_forSome]
      exact ⟨fun info _ => hQ _ _ _ _ rfl ⟨rfl, hnoted⟩, fun _ => hQ _ _ _ _ rfl ⟨rfl, hnoted⟩⟩
  · rintro e rfl
    exact hF e

theorem storeValidators_keeps {lease : Lease} {raw : RawResponse} (hlease : v.lease = some lease)
    (hcode : v.code = .request r k) (hraw : v.response = some raw) (hok : raw.ok = true)
    {Q : Unit → CycleView ι → Prop} (hQ : Q () v) :
    (storeValidators lease (d.crypto.hashUrl r.url) raw).wp (cycleContract d extra) Q E v := by
  unfold storeValidators
  rw [wp_ite]
  refine ⟨fun _ => hQ, fun _ => ?_⟩
  simp only [Task.wp_bind]
  refine now_keeps fun t => ?_
  rw [wp_attempt, wp_store]
  exact ⟨Or.inl ⟨hlease, r, k, raw, hcode, hraw, rfl, rfl, rfl, hok⟩, fun _ => hQ, fun _ => hQ⟩

theorem settleResponse_keeps {raw : RawResponse} {rl : Option RateLimitInfo}
    (hcrypto : c.deps.crypto = d.crypto) (hlease : v.lease = some c.lease)
    (hcode : v.code = .request r k) (hraw : v.response = some raw)
    {Q : HttpResponse → CycleView ι → Prop}
    (hQ : ∀ res, Settles (some raw) (.ok res) → Q res v)
    (hE : ∀ e, Settles (some raw) (.error e) → E e v) :
    (settleResponse c.http r raw rl).wp (cycleContract d extra) Q E v := by
  unfold settleResponse
  rw [wp_ite]
  refine ⟨fun h304 => hQ _ ?_, fun h304 => ?_⟩
  · simp [Settles, h304]
  rw [wp_ite]
  refine ⟨fun hok => ?_, fun hok => ?_⟩
  · have hdone : Q { status := raw.status, ok := true, notModified := false, body := some raw.body } v := by
      refine hQ _ ?_
      simp [Settles, h304, hok]
    simp only [Task.wp_bind]
    rw [wp_when]
    refine ⟨fun _ => ?_, fun _ => hdone⟩
    have hhash : c.http.crypto = d.crypto := hcrypto
    rw [hhash]
    exact storeValidators_keeps hlease hcode hraw hok hdone
  · simp only [Task.wp_bind]
    refine now_keeps fun t => ?_
    rw [wp_ite]
    refine ⟨fun _ => hE _ ?_, fun _ => hQ _ ?_⟩ <;> simp [Settles, h304, hok]

/-- A request as a whole: what it leaves in the variables and in the view. -/
structure Exchange (s : CycleLocals) (v : CycleView ι) (res : Except JsError HttpResponse)
    (s' : CycleLocals) (w : CycleView ι) : Prop where
  noted : Noted s s' w
  view : ∃ x raw n g a,
    w = { v with validator := x, response := raw, notModified := n, guarded := g, aborted := a }
  settles : Settles w.response res

theorem request_keeps (hc : InCycle d v c) (hcode : v.code = .request r k)
    (hs : s.sawNotModified = v.notModified) (hvalidator : v.validator = none)
    (hresponse : v.response = none) :
    Block.wp (cycleContract d extra) (request c.http r) (fun res => Exchange s v (.ok res))
      (fun e => Exchange s v (.error e)) s v := by
  unfold request
  simp only [Block.wp_bind, Block.wp_await]
  refine prepareRequest_keeps hc.deps.crypto hcode hvalidator (fun x => ?_) fun e a => ?_
  · refine sendRequest_keeps (v := { v.read false with validator := x }) hcode hresponse hs ?_
      fun e => ?_
    · rintro raw rl s' w rfl hnoted
      refine settleResponse_keeps (k := k) hc.deps.crypto ?_ ?_ rfl ?_ ?_
      · exact hc.lease
      · exact hcode
      · exact fun res hres => ⟨hnoted, ⟨_, _, _, _, _, rfl⟩, hres⟩
      · exact fun e hres => ⟨hnoted, ⟨_, _, _, _, _, rfl⟩, hres⟩
    · exact ⟨⟨rfl, hs⟩, ⟨_, _, _, _, _, rfl⟩, by simp [CycleView.read, Settles, hresponse]⟩
  · exact ⟨⟨rfl, hs⟩, ⟨_, _, _, _, _, rfl⟩, by simp [CycleView.read, Settles, hresponse]⟩

end Http

end Watukuy
