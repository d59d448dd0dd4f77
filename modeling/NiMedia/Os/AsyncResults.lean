/-
  Results of WMF, and the read results that they carry
  (`audio/os/win/media_foundation_helper.h`: what `SyncronousByteStream` asks of
  WMF, and its `ReadResult`).

  A result of WMF counts its references.  It keeps a reference to the object that
  it carries, and gives it back when it dies; to do so, WMF calls the object.
  WMF is a parameter: its functions, on a state of its own.

  * `Wmf.Documented`: what the functions do to a table of the results that live.
  * `Wmf.counting`: the WMF whose state is this table.
  * `Objects.ask`: a function is called, and WMF calls the read results.
-/
import NiMedia.Lib.Counted

namespace NiMedia

open Counted

namespace ByteStream

inductive HResult where
  | ok
  | invalidArg
  | notImpl
  | unexpected
  | fail
  | outOfMemory
  | shutdown
  deriving DecidableEq, Repr

/-- `SUCCEEDED`. -/
def HResult.succeeded (hr : HResult) : Bool := hr == .ok

/-! ## WMF -/

/-- What WMF calls of an object that it keeps. -/
inductive ObjectCall where
  | addRef (object : ℕ)
  | release (object : ℕ)

/-- A function of WMF: the value, the calls that WMF makes meanwhile, and the
    state behind them.  It need not be defined for a result that has died. -/
abbrev Asked (ω α : Type) := ω → Option (α × List ObjectCall × ω)

/-- What the stream asks of WMF.  Whether a result is made, and where, and
    whether a callback is queued, is up to WMF: `result`, `created` and `invoked`
    are its answers. -/
structure Wmf (ω : Type) where
  /-- `MFCreateAsyncResult` -/
  createAsyncResult (object result : ℕ) (created : HResult) : Asked ω Unit
  /-- `MFInvokeCallback` -/
  invokeCallback (result : ℕ) (invoked : HResult) : Asked ω Unit
  /-- `IMFAsyncResult::SetStatus` -/
  setStatus (result : ℕ) (status : HResult) : Asked ω Unit
  /-- `IMFAsyncResult::GetStatus` -/
  getStatus (result : ℕ) : Asked ω HResult
  /-- `IMFAsyncResult::GetObject` -/
  getObject (result : ℕ) : Asked ω (HResult × Option ℕ)
  /-- `IMFAsyncResult::Release` -/
  release (result : ℕ) : Asked ω Unit

/-- A result that lives. -/
structure AsyncResult where
  object : ℕ
  status : HResult
  references : ℕ

section
variable {ω α : Type} (table : ω → ℕ → Option AsyncResult)

/-- What a function returns and calls, and the results that live behind it. -/
def Asked.Does (f : Asked ω α) (w : ω) (a : α) (calls : List ObjectCall)
    (results : ℕ → Option AsyncResult) : Prop :=
  ∃ w', f w = some (a, calls, w') ∧ table w' = results

/-- What is documented of WMF, where `table` says which results live.  The one who
    makes a result has a reference to it, and so has WMF while a callback is
    queued or runs. -/
structure Wmf.Documented (W : Wmf ω) : Prop where
  create : ∀ {w p r s}, table w r = none → s.succeeded = true → ∃ status,
    (W.createAsyncResult p r s).Does table w () [.addRef p]
      (Function.update (table w) r (some ⟨p, status, 1⟩))
  create_failed : ∀ {w p r s}, s.succeeded = false →
    (W.createAsyncResult p r s).Does table w () [] (table w)
  invoke : ∀ {w r s a}, table w r = some a → s.succeeded = true →
    (W.invokeCallback r s).Does table w () []
      (Function.update (table w) r (some { a with references := a.references + 1 }))
  invoke_failed : ∀ {w r s a}, table w r = some a → s.succeeded = false →
    (W.invokeCallback r s).Does table w () [] (table w)
  setStatus : ∀ {w r s a}, table w r = some a →
    (W.setStatus r s).Does table w () []
      (Function.update (table w) r (some { a with status := s }))
  getStatus : ∀ {w r a}, table w r = some a → (W.getStatus r).Does table w a.status [] (table w)
  getObject : ∀ {w r a}, table w r = some a →
    (W.getObject r).Does table w (.ok, some a.object) [.addRef a.object] (table w)
  release : ∀ {w r a}, table w r = some a → 1 < a.references →
    (W.release r).Does table w () []
      (Function.update (table w) r (some { a with references := a.references - 1 }))
  release_last : ∀ {w r a}, table w r = some a → a.references = 1 →
    (W.release r).Does table w () [.release a.object] (Function.update (table w) r none)

end

/-! ## A table as a state -/

/-- An access to a result that lives. -/
def onResult {α : Type} (r : ℕ)
    (f : AsyncResult → α × List ObjectCall × Option AsyncResult) :
    Asked (ℕ → Option AsyncResult) α := fun results =>
  (results r).map fun a => ((f a).1, (f a).2.1, Function.update results r (f a).2.2)

def Wmf.counting : Wmf (ℕ → Option AsyncResult) where
  createAsyncResult object result created := fun results =>
    if created.succeeded then
      some ((), [.addRef object], Function.update results result (some ⟨object, .ok, 1⟩))
    else some ((), [], results)
  invokeCallback result invoked := onResult result fun a =>
    ((), [], some (if invoked.succeeded then { a with references := a.references + 1 } else a))
  setStatus result status := onResult result fun a => ((), [], some { a with status := status })
  getStatus result := onResult result fun a => (a.status, [], some a)
  getObject result := onResult result fun a =>
    ((.ok, some a.object), [.addRef a.object], some a)
  release result := onResult result fun a =>
    if a.references = 1 then ((), [.release a.object], none)
    else ((), [], some { a with references := a.references - 1 })

theorem onResult_does {α : Type} {results : ℕ → Option AsyncResult} {r : ℕ} {a : AsyncResult}
    (h : results r = some a) (f : AsyncResult → α × List ObjectCall × Option AsyncResult) :
    (onResult r f).Does id results (f a).1 (f a).2.1 (Function.update results r (f a).2.2) :=
  ⟨Function.update results r (f a).2.2, by rw [onResult, h]; rfl, rfl⟩

/-- A result that is looked at. -/
theorem update_same {results : ℕ → Option AsyncResult} {r : ℕ} {a : AsyncResult}
    (h : results r = some a) : Function.update results r (some a) = results := by
  rw [← h, Function.update_eq_self]

theorem Wmf.counting_documented : Wmf.counting.Documented id where
  create _ hr := ⟨.ok, _, if_pos hr, rfl⟩
  create_failed hr := ⟨_, if_neg (Bool.eq_false_iff.1 hr), rfl⟩
  invoke h hr := by
    have hdoes := onResult_does h fun a => ((), [], some { a with references := a.references + 1 })
    simpa only [Wmf.counting, hr, if_true, id_eq] using hdoes
  invoke_failed {_ r _ a} h hr := by
    have hdoes := onResult_does h fun a => ((), [], some a)
    rw [update_same h] at hdoes
    simpa only [Wmf.counting, hr, Bool.false_eq_true, if_false, id_eq] using hdoes
  setStatus h := onResult_does h _
  getStatus h := by
    have hdoes := onResult_does h fun a => (a.status, [], some a)
    rwa [update_same h] at hdoes
  getObject h := by
    have hdoes := onResult_does h fun a => ((HResult.ok, some a.object), [.addRef a.object], some a)
    rwa [update_same h] at hdoes
  release {_ r a} h hrefs := by
    have hdoes := onResult_does h fun a =>
      if a.references = 1 then ((), [ObjectCall.release a.object], none)
      else ((), [], some { a with references := a.references - 1 })
    rwa [if_neg (show ¬ a.references = 1 by omega)] at hdoes
  release_last {_ r a} h hrefs := by
    have hdoes := onResult_does h fun a =>
      if a.references = 1 then ((), [ObjectCall.release a.object], none)
      else ((), [], some { a with references := a.references - 1 })
    rwa [if_pos hrefs] at hdoes

/-! ## Read results -/

structure ReadResult where
  bytesRead : ℕ

/-- The read results that live, and the state of WMF. -/
structure Objects (ω : Type) where
  readResults : Heap ReadResult
  wmf : ω

/-- WMF calls read results; a call of one that has died fails. -/
def perform : List ObjectCall → Heap ReadResult → Option (Heap ReadResult)
  | [], R => some R
  | .addRef p :: calls, R => (R.addRef p).bind (perform calls)
  | .release p :: calls, R => (R.release p).bind fun (_, R) => perform calls R

namespace Objects

variable {ω α : Type}

/-- A function of WMF is called. -/
def ask (f : Asked ω α) (o : Objects ω) : Option (α × Objects ω) := do
  let (a, calls, wmf) ← f o.wmf
  let readResults ← perform calls o.readResults
  pure (a, ⟨readResults, wmf⟩)

/-- `ReadResult::Release`, called by the stream. -/
def releaseRead (object : ℕ) (o : Objects ω) : Option (Objects ω) :=
  (o.readResults.release object).map fun (_, readResults) => { o with readResults := readResults }

variable (table : ω → ℕ → Option AsyncResult)

/-- Nothing lives. -/
def Vacant (o : Objects ω) : Prop := ∀ p, o.readResults.cells p = none ∧ table o.wmf p = none

variable {table} {f : Asked ω α} {o : Objects ω} {a : α} {calls : List ObjectCall}
  {results : ℕ → Option AsyncResult} {R : Heap ReadResult}

theorem ask_eq (h : f.Does table o.wmf a calls results)
    (hcalls : perform calls o.readResults = some R) :
    ∃ w, o.ask f = some (a, ⟨R, w⟩) ∧ table w = results := by
  obtain ⟨w, hw, hresults⟩ := h
  refine ⟨w, ?_, hresults⟩
  simp only [ask, hw, Option.bind_eq_bind, Option.bind_some, hcalls]
  rfl

/-- WMF calls no object. -/
theorem ask_silent (h : f.Does table o.wmf a [] results) :
    ∃ w, o.ask f = some (a, ⟨o.readResults, w⟩) ∧ table w = results :=
  ask_eq h rfl

end Objects

end ByteStream

end NiMedia
