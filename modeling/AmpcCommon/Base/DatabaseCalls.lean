import AmpcCommon.Base.DatabaseRules

/-!
# Clients that make calls

A client makes calls one after the other, each a program of requests. What a call returns is said of the log, of how
much of it the client had seen before, and of how much it sees after (`Answers`). It stays true of a longer log
(`Answers.Stable`), so that what is proved of one call holds of all calls of a run (`runCalls_safe`).
-/

namespace Database

open RelyGuarantee

variable {C ρ Call Result : Type}

/-- A client makes its calls one after the other. -/
def runCalls (run : Call → Program ρ Result) : List Call → Program ρ (List Result)
  | [] => pure []
  | call :: calls => do
    let result ← run call
    let results ← runCalls run calls
    return result :: results

/-- What calls return, when the client had seen `m` transactions of the log before and sees `m'` after. -/
abbrev Answers (C ρ Call Result : Type) := List (Commit C ρ) → Nat → Nat → Call → Result → Prop

/-- What happens later changes nothing of it. -/
def Answers.Stable (A : Answers C ρ Call Result) : Prop :=
  ∀ log log' m m' call result, A log m m' call result → m ≤ m' → m' ≤ log.length → log <+: log' →
    A log' m m' call result

/-- What the calls of a client return, one after the other, when it had seen `m` transactions before. -/
inductive Trace (A : Answers C ρ Call Result) (log : List (Commit C ρ)) : Nat → List Call → List Result → Nat → Prop
  where
  | nil (m : Nat) : Trace A log m [] [] m
  | cons {m m' m'' : Nat} {call : Call} {calls : List Call} {result : Result} {results : List Result} : m ≤ m' →
      m' ≤ log.length → A log m m' call result → Trace A log m' calls results m'' →
      Trace A log m (call :: calls) (result :: results) m''

theorem Trace.mono {A : Answers C ρ Call Result} (hA : A.Stable) {log log' : List (Commit C ρ)} {m m' : Nat}
    {calls : List Call} {results : List Result} (h : Trace A log m calls results m') (hlog : log <+: log') :
    Trace A log' m calls results m' := by
  induction h with
  | nil => exact Trace.nil _
  | cons hm hm' hanswers _ ih =>
    exact Trace.cons hm (Nat.le_trans hm' hlog.length_le) (hA _ _ _ _ _ _ hanswers hm hm' hlog) ih

/-- One of the calls, and those after it. -/
theorem Trace.get {A : Answers C ρ Call Result} {log : List (Commit C ρ)} {m m'' i : Nat} {calls : List Call}
    {results : List Result} (h : Trace A log m calls results m'') {call : Call} (hcall : calls[i]? = some call)
    {result : Result} (hresult : results[i]? = some result) :
    ∃ n n', m ≤ n ∧ n ≤ n' ∧ A log n n' call result ∧
      Trace A log n' (calls.drop (i + 1)) (results.drop (i + 1)) m'' := by
  induction h generalizing i with
  | nil => cases hcall
  | @cons m m' m'' first calls firstResult results hm hm' hanswers hrest ih =>
    cases i with
    | zero =>
      cases hcall
      cases hresult
      exact ⟨m, m', Nat.le_refl m, hm, hanswers, hrest⟩
    | succ i =>
      obtain ⟨n, n', hmn, hn, hanswers', hrest'⟩ := ih hcall hresult
      exact ⟨n, n', Nat.le_trans hm hmn, hn, hanswers', hrest'⟩

/-- Two of the calls, the second one after the first. -/
theorem Trace.get_after {A : Answers C ρ Call Result} {log : List (Commit C ρ)} {m m'' i j : Nat} {calls : List Call}
    {results : List Result} (h : Trace A log m (calls.drop (i + 1)) (results.drop (i + 1)) m'') (hij : i < j)
    {call : Call} (hcall : calls[j]? = some call) {result : Result} (hresult : results[j]? = some result) :
    ∃ n n', m ≤ n ∧ n ≤ n' ∧ A log n n' call result ∧
      Trace A log n' (calls.drop (j + 1)) (results.drop (j + 1)) m'' := by
  have hindex : i + 1 + (j - (i + 1)) = j := by omega
  have hcall : (calls.drop (i + 1))[j - (i + 1)]? = some call := by
    rw [List.getElem?_drop, hindex, hcall]
  have hresult : (results.drop (i + 1))[j - (i + 1)]? = some result := by
    rw [List.getElem?_drop, hindex, hresult]
  have hget := h.get hcall hresult
  rwa [List.drop_drop, List.drop_drop, ← Nat.add_assoc, hindex] at hget

section Runs

variable {I : View C ρ → Prop} {A : Answers C ρ Call Result} {c : C}

/-- A client between two calls. -/
structure Rests (I : View C ρ → Prop) (c : C) (v₀ v : View C ρ) : Prop where
  inv : I v
  idle : v.tx c = .idle
  before : v₀.Before c v

theorem Rests.extends {v₀ v w : View C ρ} (h : Rests I c v₀ v) (hw : I w) (hextends : v.Extends c w) :
    Rests I c v₀ w :=
  ⟨hw, hextends.idle h.idle, h.before.extends hextends⟩

/-- A client after a call. -/
structure Called (I : View C ρ → Prop) (A : Answers C ρ Call Result) (c : C) (v₀ : View C ρ) (call : Call)
    (result : Result) (v : View C ρ) : Prop extends Rests I c v₀ v where
  answers : A v.log (v₀.seen c) (v.seen c) call result

theorem Called.extends (hI : ∀ v, I v → v.Labelled) (hA : A.Stable) {v₀ v w : View C ρ} {call : Call} {result : Result}
    (h : Called I A c v₀ call result v) (hw : I w) (hextends : v.Extends c w) : Called I A c v₀ call result w := by
  refine ⟨h.toRests.extends hw hextends, ?_⟩
  rw [hextends.seen]
  exact hA _ _ _ _ _ _ h.answers h.before.seen ((hI v h.inv).seen_le c) hextends.log

/-- A client after its calls. -/
structure Served (I : View C ρ → Prop) (A : Answers C ρ Call Result) (c : C) (v₀ : View C ρ) (calls : List Call)
    (results : List Result) (v : View C ρ) : Prop extends Rests I c v₀ v where
  trace : Trace A v.log (v₀.seen c) calls results (v.seen c)

theorem Served.extends (hA : A.Stable) {v₀ v w : View C ρ} {calls : List Call} {results : List Result}
    (h : Served I A c v₀ calls results v) (hw : I w) (hextends : v.Extends c w) :
    Served I A c v₀ calls results w := by
  refine ⟨h.toRests.extends hw hextends, ?_⟩
  rw [hextends.seen]
  exact h.trace.mono hA hextends.log

variable {server : Server C ρ} {s : server.State} {G : server.State → server.State → Prop}
    {perform : (o : Request ρ) → server.Choice → server.State → Option (Answer ρ × server.State)}

/-- The return of a call. -/
theorem called_safe (hI : ∀ v, I v → v.Labelled) (hA : A.Stable) {β : Type} {g : β → Result} {a : β} {v₀ : View C ρ}
    {call : Call} (h : Called I A c v₀ call (g a) (server.view s)) :
    Safe perform (Others c server I) G (fun a t => Called I A c v₀ call (g a) (server.view t)) (pure a) s := by
  refine Safe.pure fun t ht => ?_
  obtain ⟨hinv, hextends⟩ := ht h.inv
  exact h.extends hI hA hinv hextends

/-- The result of a call. -/
theorem called_map_safe (hI : ∀ v, I v → v.Labelled) (hA : A.Stable) {β : Type} {g : β → Result} {p : Program ρ β}
    {v₀ : View C ρ} {call : Call}
    (h : Safe perform (Others c server I) G (fun a t => Called I A c v₀ call (g a) (server.view t)) p s) :
    Safe perform (Others c server I) G (fun result t => Called I A c v₀ call result (server.view t))
      (p >>= fun a => pure (g a)) s :=
  Safe.bind Others.refl (h.mono (fun _ _ hG => hG) fun _ _ hcalled => called_safe hI hA (g := id) hcalled)

/-- **The rule of calls.** What is proved of every call holds of all calls of a client. -/
theorem runCalls_safe (hI : ∀ v, I v → v.Labelled) (hA : A.Stable) {run : Call → Program ρ Result}
    (hrun : ∀ call (s : server.State), I (server.view s) → (server.view s).tx c = .idle →
      Safe perform (Others c server I) G (fun result t => Called I A c (server.view s) call result (server.view t))
        (run call) s)
    (calls : List Call) (hinv : I (server.view s)) (hidle : (server.view s).tx c = .idle) :
    Safe perform (Others c server I) G
      (fun results t => Served I A c (server.view s) calls results (server.view t)) (runCalls run calls) s := by
  induction calls generalizing s with
  | nil =>
    refine Safe.pure fun s' hs' => ?_
    obtain ⟨hinv', hextends⟩ := hs' hinv
    refine ⟨⟨hinv', hextends.idle hidle, (View.Before.refl c (server.view s)).extends hextends⟩, ?_⟩
    rw [hextends.seen]
    exact Trace.nil _
  | cons call calls ih =>
    refine Safe.bind Others.refl ((hrun call s hinv hidle).mono (fun _ _ h => h) fun result t hcalled => ?_)
    refine Safe.bind Others.refl ((ih hcalled.inv hcalled.idle).mono (fun _ _ h => h) fun results u hserved => ?_)
    have hall : Served I A c (server.view s) (call :: calls) (result :: results) (server.view u) := by
      have hlog := hserved.before.log
      have hle := (hI _ hcalled.inv).seen_le c
      refine ⟨⟨hserved.inv, hserved.idle, hcalled.before.log.trans hlog,
        Nat.le_trans hcalled.before.seen hserved.before.seen⟩, ?_⟩
      exact Trace.cons hcalled.before.seen (Nat.le_trans hle hlog.length_le)
        (hA _ _ _ _ _ _ hcalled.answers hcalled.before.seen hle hlog) hserved.trace
    refine Safe.pure fun u' hu' => ?_
    obtain ⟨hinv', hextends⟩ := hu' hall.inv
    exact hall.extends hA hinv' hextends

end Runs

/-! ## Calls of all clients -/

section AllClients

/-- What happens next: a client makes a call, or the database does something without a request. -/
inductive CallEvent (server : Server C ρ) (Call : Type) where
  | call (client : C) (call : Call) (choice : server.Choice)
  | internal (choice : server.Choice)

/-- A call that has returned, and what the database kept before it. -/
structure Returned (C ρ Call Result : Type) where
  client : C
  call : Call
  before : View C ρ
  result : Result

/-- A program of one request at most, as a whole. -/
def Server.call (server : Server C ρ) (c : C) (choice : server.Choice) (p : Program ρ Result) (s : server.State) :
    Option (Result × server.State) :=
  match p with
  | .done result => some (result, s)
  | .act r k => (server.perform c r choice s).bind fun x => (k x.1).result?.map fun result => (result, x.2)

/-- All clients make calls, each of one request at most. A run keeps what they have returned. -/
def Server.stepCalls (server : Server C ρ) (run : Call → Program ρ Result)
    (s : server.State × List (Returned C ρ Call Result)) :
    CallEvent server Call → Option (server.State × List (Returned C ρ Call Result))
  | .call c call choice =>
    (server.call c choice (run call) s.1).map fun r => (r.2, s.2 ++ [⟨c, call, server.view s.1, r.1⟩])
  | .internal choice => (server.internal choice s.1).map fun t => (t, s.2)

variable [DecidableEq C] {server : Server C ρ} {accepts : ρ → Bool} {c : C} {choice : server.Choice}
  {s t : server.State} {result : Result}

/-- A call of one request. -/
theorem Server.Documented.call (hserver : server.Documented accepts) {r : Request ρ} {k : Answer ρ → Program ρ Result}
    (h : server.call c choice (.act r k) s = some (result, t)) :
    ∃ answer, Allowed accepts c (server.view s) r answer (server.view t) ∧ (k answer).result? = some result := by
  obtain ⟨⟨answer, t'⟩, hperform, hk⟩ := Option.bind_eq_some_iff.mp h
  obtain ⟨result', hresult, heq⟩ := Option.map_eq_some_iff.mp hk
  cases heq
  exact ⟨answer, hserver.perform _ _ _ _ _ _ hperform, hresult⟩

end AllClients

end Database
