import AmpcCommon.Base.Transition
import Mathlib.Algebra.Order.BigOperators.Group.Finset
import Mathlib.Data.Fintype.Basic
import Mathlib.Data.Fintype.Prod
import Mathlib.Data.List.Forall2
import Mathlib.Logic.Function.Basic

/-!
# Processes over streams

Processes are connected by streams. What a process writes on one of its ports comes in at the port at the other end of
the wire, in order. A write puts its elements on the stream in chunks of any size, and a read takes what is there in
chunks of any size.

What a process is to do is a script, a list of single operations with stages (`Does`). When every element that is to be
read is the one that is written, one stage earlier, the processes follow their scripts whatever the chunks and the
order of the steps are (`Follows.step`), they do not block each other (`Follows.progress`), and what is read has been
written before (`Follows.sent`).
-/

namespace StreamNetwork

/-- A process: what it writes, reads and notes down, and what it returns. -/
inductive Process (D β N α : Type) where
  | pure (a : α)
  /-- Write all elements. -/
  | write (d : D) (bs : List β) (k : Process D β N α)
  /-- Read exactly `n` more elements, after the elements `got`. -/
  | readExact (d : D) (n : Nat) (got : List β) (k : List β → Process D β N α)
  /-- One read, of at most `max` elements. -/
  | read (d : D) (max : Nat) (k : List β → Process D β N α)
  | note (e : N) (k : Process D β N α)

/-- One operation on a single element. -/
inductive Act (D β N : Type) where
  | send (d : D) (b : β)
  | recv (d : D) (b : β)
  | note (e : N)
  /-- A read or a write comes to its end. -/
  | skip

namespace Process

variable {D β N α γ : Type}

/-- Run a process and continue with its result. -/
def bind : Process D β N α → (α → Process D β N γ) → Process D β N γ
  | .pure a, f => f a
  | .write d bs k, f => .write d bs (k.bind f)
  | .readExact d n got k, f => .readExact d n got fun bs => (k bs).bind f
  | .read d max k, f => .read d max fun bs => (k bs).bind f
  | .note e k, f => .note e (k.bind f)

/-- The process has returned, or makes a single read. -/
def Halted : Process D β N α → Prop
  | .pure _ => True
  | .read _ _ _ => True
  | _ => False

end Process

section Does

variable {D β N α γ : Type}

/-- The process performs the operations, if it receives what they say, and halts as `y`. -/
inductive Does : Process D β N α → List (Act D β N) → Process D β N α → Prop where
  | done {y : Process D β N α} : y.Halted → Does y [] y
  | written {d : D} {k y : Process D β N α} {as : List (Act D β N)} : Does k as y → Does (.write d [] k) (.skip :: as) y
  | send {d : D} {b : β} {bs : List β} {k y : Process D β N α} {as : List (Act D β N)} :
      Does (.write d bs k) as y → Does (.write d (b :: bs) k) (.send d b :: as) y
  | filled {d : D} {got : List β} {k : List β → Process D β N α} {y : Process D β N α} {as : List (Act D β N)} :
      Does (k got) as y → Does (.readExact d 0 got k) (.skip :: as) y
  | recv {d : D} {n : Nat} {b : β} {got : List β} {k : List β → Process D β N α} {y : Process D β N α}
      {as : List (Act D β N)} :
      Does (.readExact d n (got ++ [b]) k) as y → Does (.readExact d (n + 1) got k) (.recv d b :: as) y
  | note {e : N} {k y : Process D β N α} {as : List (Act D β N)} : Does k as y → Does (.note e k) (.note e :: as) y

namespace Does

theorem bind {x : Process D β N α} {as bs : List (Act D β N)} {a : α} (h : Does x as (.pure a))
    {f : α → Process D β N γ} {y : Process D β N γ} (hf : Does (f a) bs y) : Does (x.bind f) (as ++ bs) y := by
  generalize hz : Process.pure a = z at h
  induction h with
  | done _ =>
    subst hz
    exact hf
  | written _ ih => exact .written (ih hz)
  | send _ ih => exact .send (ih hz)
  | filled _ ih => exact .filled (ih hz)
  | recv _ ih => exact .recv (ih hz)
  | note _ ih => exact .note (ih hz)

/-- All elements are sent. -/
theorem write {d : D} {bs : List β} {k y : Process D β N α} {as : List (Act D β N)} (h : Does k as y) :
    Does (.write d bs k) (bs.map (.send d) ++ .skip :: as) y := by
  induction bs with
  | nil => exact .written h
  | cons b bs ih => exact .send ih

/-- All elements are received. -/
theorem readExact {d : D} {bs got : List β} {k : List β → Process D β N α} {y : Process D β N α}
    {as : List (Act D β N)} (h : Does (k (got ++ bs)) as y) :
    Does (.readExact d bs.length got k) (bs.map (.recv d) ++ .skip :: as) y := by
  induction bs generalizing got with
  | nil =>
    rw [List.append_nil] at h
    exact .filled h
  | cons b bs ih =>
    refine .recv (ih ?_)
    rwa [List.append_assoc]

theorem eq_of_nil {x y : Process D β N α} (h : Does x [] y) : x = y := by
  cases h
  rfl

theorem not_halted {x y : Process D β N α} {a : Act D β N} {as : List (Act D β N)} (h : Does x (a :: as) y) :
    ¬ x.Halted := by
  cases h <;> exact id

/-- A chunk of a write. -/
theorem write_chunk {d : D} {bs : List β} {k y : Process D β N α} {as : List (Act D β N)}
    (h : Does (.write d bs k) as y) {m : Nat} (hm : m ≤ bs.length) :
    ∃ as', as = (bs.take m).map (.send d) ++ as' ∧ Does (.write d (bs.drop m) k) as' y := by
  induction m generalizing bs as with
  | zero => exact ⟨as, rfl, h⟩
  | succ m ih =>
    cases h with
    | done hy => exact hy.elim
    | written h => exact absurd hm (by simp)
    | @send _ b bs _ _ as h =>
      obtain ⟨as', rfl, hdoes⟩ := ih h (Nat.le_of_succ_le_succ hm)
      exact ⟨as', rfl, hdoes⟩

/-- A chunk of a read. -/
theorem read_chunk {d : D} {n : Nat} {got : List β} {k : List β → Process D β N α} {y : Process D β N α}
    {as : List (Act D β N)} (h : Does (.readExact d n got k) as y) {m : Nat} (hm : m ≤ n) :
    ∃ bs as', bs.length = m ∧ as = bs.map (.recv d) ++ as' ∧ Does (.readExact d (n - m) (got ++ bs) k) as' y := by
  induction m generalizing n got as with
  | zero =>
    refine ⟨[], as, rfl, rfl, ?_⟩
    rwa [List.append_nil]
  | succ m ih =>
    cases h with
    | done hy => exact hy.elim
    | filled h => exact absurd hm (Nat.not_succ_le_zero m)
    | @recv _ n b _ _ _ as h =>
      obtain ⟨bs, as', hlen, rfl, hdoes⟩ := ih h (Nat.le_of_succ_le_succ hm)
      refine ⟨b :: bs, as', congrArg Nat.succ hlen, rfl, ?_⟩
      rwa [Nat.add_sub_add_right, List.append_cons]

end Does

end Does

/-! ## Networks -/

section Network

variable {P D β N α γ : Type} [DecidableEq P] [DecidableEq D]

/-- The processes, what is on its way to each port, and what was noted down. -/
structure Config (P D β N α : Type) where
  proc : P → Process D β N α
  inbox : P × D → List β
  log : List (P × N)

/-- Processes that start with nothing on its way. -/
def start (x : P → Process D β N α) : Config P D β N α := ⟨x, fun _ => [], []⟩

/-- One step of the process `p`, a chunk of size `m` where it writes or reads; `none` when it is not possible. -/
def step (wire : P × D → P × D) (c : Config P D β N α) : P × Nat → Option (Config P D β N α)
  | (p, m) =>
    match c.proc p with
    | .pure _ => none
    | .note e k => some { c with proc := Function.update c.proc p k, log := c.log ++ [(p, e)] }
    | .write d bs k =>
      if bs = [] then some { c with proc := Function.update c.proc p k }
      else if 0 < m ∧ m ≤ bs.length then
        let e := wire (p, d)
        some { c with
          proc := Function.update c.proc p (.write d (bs.drop m) k)
          inbox := Function.update c.inbox e (c.inbox e ++ bs.take m) }
      else none
    | .readExact d n got k =>
      let bs := c.inbox (p, d)
      if n = 0 then some { c with proc := Function.update c.proc p (k got) }
      else if 0 < m ∧ m ≤ n ∧ m ≤ bs.length then
        some { c with
          proc := Function.update c.proc p (.readExact d (n - m) (got ++ bs.take m) k)
          inbox := Function.update c.inbox (p, d) (bs.drop m) }
      else none
    | .read d max k =>
      let bs := c.inbox (p, d)
      if 0 < m ∧ m ≤ max ∧ m ≤ bs.length then
        some { c with
          proc := Function.update c.proc p (k (bs.take m))
          inbox := Function.update c.inbox (p, d) (bs.drop m) }
      else none

/-- A step of a process does not change the others. -/
theorem proc_of_ne {wire : P × D → P × D} {c t : Config P D β N α} {p q : P} {m : Nat}
    (ht : step wire c (p, m) = some t) (hq : q ≠ p) : t.proc q = c.proc q := by
  have hupdate : ∀ {k : Process D β N α} {inbox : P × D → List β} {log : List (P × N)},
      some (Config.mk (Function.update c.proc p k) inbox log) = some t → t.proc q = c.proc q := by
    rintro k inbox log ht
    cases ht
    exact Function.update_of_ne hq _ _
  unfold step at ht
  dsimp only at ht
  cases hp : c.proc p with
  | pure a =>
    rw [hp] at ht
    cases ht
  | note e k =>
    rw [hp] at ht
    exact hupdate ht
  | write d bs k =>
    rw [hp] at ht
    dsimp only at ht
    split_ifs at ht
    · exact hupdate ht
    · exact hupdate ht
  | readExact d n got k =>
    rw [hp] at ht
    dsimp only at ht
    split_ifs at ht
    · exact hupdate ht
    · exact hupdate ht
  | read d max k =>
    rw [hp] at ht
    dsimp only at ht
    split_ifs at ht
    exact hupdate ht

/-- What a process has noted down. -/
def notesOf (p : P) (log : List (P × N)) : List N := log.filterMap fun x => if x.1 = p then some x.2 else none

/-- What `f` picks out of the operations, with their stages. -/
def picks (f : Act D β N → Option γ) (ops : List (Nat × Act D β N)) : List (Nat × γ) :=
  ops.filterMap fun x => (f x.2).map fun y => (x.1, y)

def Act.sent? (d : D) : Act D β N → Option β
  | .send d' b => if d' = d then some b else none
  | _ => none

def Act.received? (d : D) : Act D β N → Option β
  | .recv d' b => if d' = d then some b else none
  | _ => none

def Act.noted? : Act D β N → Option N
  | .note e => some e
  | _ => none

namespace Act

@[simp] theorem sent_send (d d' : D) (b : β) :
    (.send d' b : Act D β N).sent? d = if d' = d then some b else none := rfl

@[simp] theorem sent_recv (d d' : D) (b : β) : (.recv d' b : Act D β N).sent? d = none := rfl

@[simp] theorem sent_note (d : D) (e : N) : (.note e : Act D β N).sent? d = none := rfl

@[simp] theorem sent_skip (d : D) : (.skip : Act D β N).sent? d = none := rfl

@[simp] theorem received_recv (d d' : D) (b : β) :
    (.recv d' b : Act D β N).received? d = if d' = d then some b else none := rfl

@[simp] theorem received_send (d d' : D) (b : β) : (.send d' b : Act D β N).received? d = none := rfl

@[simp] theorem received_note (d : D) (e : N) : (.note e : Act D β N).received? d = none := rfl

@[simp] theorem received_skip (d : D) : (.skip : Act D β N).received? d = none := rfl

theorem filterMap_sent_send (d d' : D) (bs : List β) :
    (bs.map (.send d' : β → Act D β N)).filterMap (Act.sent? d) = if d' = d then bs else [] := by
  rw [List.filterMap_map]
  by_cases h : d' = d
  · rw [if_pos h]
    simp [h]
  · rw [if_neg h]
    simp [h]

theorem filterMap_received_recv (d d' : D) (bs : List β) :
    (bs.map (.recv d' : β → Act D β N)).filterMap (Act.received? d) = if d' = d then bs else [] := by
  rw [List.filterMap_map]
  by_cases h : d' = d
  · rw [if_pos h]
    simp [h]
  · rw [if_neg h]
    simp [h]

theorem filterMap_sent_recv (d d' : D) (bs : List β) :
    (bs.map (.recv d' : β → Act D β N)).filterMap (Act.sent? d) = [] := by
  rw [List.filterMap_map]
  exact List.filterMap_eq_nil_iff.mpr fun _ _ => rfl

theorem filterMap_received_send (d d' : D) (bs : List β) :
    (bs.map (.send d' : β → Act D β N)).filterMap (Act.received? d) = [] := by
  rw [List.filterMap_map]
  exact List.filterMap_eq_nil_iff.mpr fun _ _ => rfl

end Act

/-- The elements a script sends on a port. -/
abbrev sends (d : D) (ops : List (Nat × Act D β N)) : List (Nat × β) := picks (Act.sent? d) ops

/-- The elements a script receives on a port. -/
abbrev recvs (d : D) (ops : List (Nat × Act D β N)) : List (Nat × β) := picks (Act.received? d) ops

/-- What a script notes down. -/
abbrev notes (ops : List (Nat × Act D β N)) : List (Nat × N) := picks Act.noted? ops

omit [DecidableEq D] in
theorem picks_append (f : Act D β N → Option γ) (ops ops' : List (Nat × Act D β N)) :
    picks f (ops ++ ops') = picks f ops ++ picks f ops' := List.filterMap_append

omit [DecidableEq D] in
theorem mem_picks {f : Act D β N → Option γ} {ops : List (Nat × Act D β N)} {r : Nat} {y : γ} :
    (r, y) ∈ picks f ops ↔ ∃ a, (r, a) ∈ ops ∧ f a = some y := by
  unfold picks
  rw [List.mem_filterMap]
  constructor
  · rintro ⟨⟨r', a⟩, hmem, hpick⟩
    obtain ⟨y', hy, hpair⟩ := Option.map_eq_some_iff.mp hpick
    cases hpair
    exact ⟨a, hmem, hy⟩
  · rintro ⟨a, hmem, ha⟩
    exact ⟨(r, a), hmem, by rw [ha]; rfl⟩

omit [DecidableEq D] in
theorem picks_map_mk (f : Act D β N → Option γ) (r : Nat) (as : List (Act D β N)) :
    picks f (as.map (Prod.mk r)) = (as.filterMap f).map (Prod.mk r) := by
  unfold picks
  rw [List.filterMap_map, List.map_filterMap]
  rfl

omit [DecidableEq D] in
/-- Nothing is picked out of operations of another kind. -/
theorem picks_eq_nil {f : Act D β N → Option γ} {g : β → Act D β N} (hfg : ∀ b, f (g b) = none)
    {ops : List (Nat × Act D β N)} {bs : List β} (h : ops.map Prod.snd = bs.map g) : picks f ops = [] := by
  unfold picks
  rw [List.filterMap_eq_nil_iff]
  intro x hx
  obtain ⟨b, -, hb⟩ := List.mem_map.mp (h ▸ List.mem_map_of_mem hx)
  rw [← hb, hfg]
  rfl

omit [DecidableEq D] in
/-- All operations of a kind are picked. -/
theorem picks_eq_map {f : Act D β N → Option γ} {g : γ → Act D β N} (hfg : ∀ b, f (g b) = some b)
    {ops : List (Nat × Act D β N)} {bs : List γ} (h : ops.map Prod.snd = bs.map g) :
    (picks f ops).map Prod.snd = bs := by
  induction ops generalizing bs with
  | nil =>
    rw [List.map_nil] at h
    exact (List.map_eq_nil_iff.mp h.symm).symm
  | cons x ops ih =>
    cases bs with
    | nil => cases h
    | cons b bs =>
      obtain ⟨hx, hrest⟩ := List.cons.inj h
      unfold picks
      rw [List.filterMap_cons, hx, hfg]
      exact congrArg (b :: ·) (ih hrest)

omit [DecidableEq P] [DecidableEq D] in
theorem sorted_map_mk (r : Nat) (as : List (Act D β N)) : (as.map (Prod.mk r)).Pairwise fun x y => x.1 ≤ y.1 :=
  List.pairwise_map.mpr (List.pairwise_of_forall fun _ _ => Nat.le_refl r)

omit [DecidableEq P] [DecidableEq D] in
/-- The operations of a stage come before those of later ones. -/
theorem sorted_map_mk_append {r : Nat} {as : List (Act D β N)} {ops : List (Nat × Act D β N)}
    (hops : ops.Pairwise fun x y => x.1 ≤ y.1) (hle : ∀ y ∈ ops, r ≤ y.1) :
    (as.map (Prod.mk r) ++ ops).Pairwise fun x y => x.1 ≤ y.1 := by
  refine List.pairwise_append.mpr ⟨sorted_map_mk r as, hops, ?_⟩
  intro x hx y hy
  obtain ⟨a, -, rfl⟩ := List.mem_map.mp hx
  exact hle y hy

/-- An element is received one stage after it is sent. -/
def Matches (x y : Nat × β) : Prop := x.1 + 1 = y.1 ∧ x.2 = y.2

omit [DecidableEq P] [DecidableEq D] in
theorem map_snd_eq {l l' : List (Nat × β)} (h : List.Forall₂ Matches l l') : l.map Prod.snd = l'.map Prod.snd := by
  induction h with
  | nil => rfl
  | cons hxy _ ih => rw [List.map_cons, List.map_cons, hxy.2, ih]

omit [DecidableEq P] [DecidableEq D] in
theorem matches_map_mk (r : Nat) (bs : List β) :
    List.Forall₂ Matches (bs.map (Prod.mk r)) (bs.map (Prod.mk (r + 1))) := by
  induction bs with
  | nil => exact .nil
  | cons b bs ih => exact .cons ⟨rfl, rfl⟩ ih

omit [DecidableEq P] [DecidableEq D] in
theorem exists_match {l l' : List (Nat × β)} (h : List.Forall₂ Matches l l') {x : Nat × β} (hx : x ∈ l) :
    ∃ y ∈ l', Matches x y := by
  induction h with
  | nil => cases hx
  | @cons x' y' _ _ hxy _ ih =>
    rcases List.mem_cons.mp hx with rfl | hx
    · exact ⟨y', List.mem_cons_self, hxy⟩
    · obtain ⟨y, hy, hmatch⟩ := ih hx
      exact ⟨y, List.mem_cons_of_mem _ hy, hmatch⟩

variable (P D β N α) in
/-- What a network is to do: the script of each process, how it halts, and what is left on each port at the end. -/
structure Plan where
  script : P → List (Nat × Act D β N)
  final : P → Process D β N α
  extra : P × D → List (Nat × β)

/-- The processes are at some point of their scripts: `past` is done and `ops` is still to do, and what is on its way,
with the stages it was sent at, is what is received next. -/
structure Follows (wire : P × D → P × D) (plan : Plan P D β N α) (past ops : P → List (Nat × Act D β N))
    (queue : P × D → List (Nat × β)) (c : Config P D β N α) : Prop where
  script : ∀ p, plan.script p = past p ++ ops p
  does : ∀ p, Does (c.proc p) ((ops p).map Prod.snd) (plan.final p)
  inbox : ∀ e, (queue e).map Prod.snd = c.inbox e
  matched : ∀ e, List.Forall₂ Matches (queue e ++ sends (wire e).2 (ops (wire e).1))
    (recvs e.2 (ops e.1) ++ plan.extra e)
  log : ∀ p, notesOf p c.log = (notes (past p)).map Prod.snd

omit [DecidableEq D] in
/-- What is picked out of the operations of a process that has done the first ones. -/
theorem picks_update (f : Act D β N → Option γ) {ops : P → List (Nat × Act D β N)} {p : P}
    {w rest : List (Nat × Act D β N)} (hops : ops p = w ++ rest) (q : P) :
    picks f (ops q) = (if q = p then picks f w else []) ++ picks f (Function.update ops p rest q) := by
  by_cases hq : q = p
  · subst hq
    rw [if_pos rfl, Function.update_self, hops, picks_append]
  · rw [if_neg hq, Function.update_of_ne hq]
    rfl

omit [DecidableEq D] in
theorem picks_update_of_nil {f : Act D β N → Option γ} {ops : P → List (Nat × Act D β N)} {p : P}
    {w rest : List (Nat × Act D β N)} (hops : ops p = w ++ rest) (hw : picks f w = []) (q : P) :
    picks f (Function.update ops p rest q) = picks f (ops q) := by
  rw [picks_update f hops q, hw, ite_self, List.nil_append]

namespace Follows

variable {wire : P × D → P × D} {plan : Plan P D β N α} {past ops : P → List (Nat × Act D β N)}
  {queue : P × D → List (Nat × β)} {c t : Config P D β N α} {p : P} {m : Nat}

/-- The process `p` does the operations `w`. -/
theorem advance (h : Follows wire plan past ops queue c) {w rest : List (Nat × Act D β N)} (hops : ops p = w ++ rest)
    {queue' : P × D → List (Nat × β)} (hproc : ∀ q, q ≠ p → t.proc q = c.proc q)
    (hdoes : Does (t.proc p) (rest.map Prod.snd) (plan.final p)) (hinbox : ∀ e, (queue' e).map Prod.snd = t.inbox e)
    (hmatched : ∀ e, List.Forall₂ Matches (queue' e ++ sends (wire e).2 (Function.update ops p rest (wire e).1))
      (recvs e.2 (Function.update ops p rest e.1) ++ plan.extra e))
    (hlog : ∀ q, notesOf q t.log = notesOf q c.log ++ if q = p then (notes w).map Prod.snd else []) :
    Follows wire plan (Function.update past p (past p ++ w)) (Function.update ops p rest) queue' t := by
  refine ⟨fun q => ?_, fun q => ?_, hinbox, hmatched, fun q => ?_⟩
  · by_cases hq : q = p
    · subst hq
      rw [Function.update_self, Function.update_self, h.script, hops, List.append_assoc]
    · rw [Function.update_of_ne hq, Function.update_of_ne hq, h.script]
  · by_cases hq : q = p
    · subst hq
      rwa [Function.update_self]
    · rw [Function.update_of_ne hq, hproc q hq]
      exact h.does q
  · rw [hlog, h.log]
    by_cases hq : q = p
    · subst hq
      unfold notes
      rw [if_pos rfl, Function.update_self, picks_append, List.map_append]
    · rw [if_neg hq, Function.update_of_ne hq, List.append_nil]

/-- An operation that neither sends nor receives. -/
theorem silent (h : Follows wire plan past ops queue c) {x : Nat × Act D β N} {rest : List (Nat × Act D β N)}
    (hops : ops p = x :: rest) (hsent : ∀ d, x.2.sent? d = none) (hreceived : ∀ d, x.2.received? d = none)
    (hproc : ∀ q, q ≠ p → t.proc q = c.proc q) (hdoes : Does (t.proc p) (rest.map Prod.snd) (plan.final p))
    (hinbox : t.inbox = c.inbox)
    (hlog : ∀ q, notesOf q t.log = notesOf q c.log ++ if q = p then (notes [x]).map Prod.snd else []) :
    Follows wire plan (Function.update past p (past p ++ [x])) (Function.update ops p rest) queue t := by
  have hnil : ∀ f : Act D β N → Option β, f x.2 = none → picks f [x] = [] := by
    intro f hf
    unfold picks
    rw [List.filterMap_cons, hf]
    rfl
  refine h.advance (w := [x]) hops hproc hdoes (fun e => hinbox ▸ h.inbox e) (fun e => ?_) hlog
  unfold sends recvs
  rw [picks_update_of_nil (w := [x]) hops (hnil _ (hsent _)),
    picks_update_of_nil (w := [x]) hops (hnil _ (hreceived _))]
  exact h.matched e

/-- A chunk of a write. -/
theorem write (hwire : Function.Involutive wire) (h : Follows wire plan past ops queue c) {d : D} {bs : List β}
    {k : Process D β N α} (hp : c.proc p = .write d bs k) (hm : m ≤ bs.length) :
    ∃ w rest queue', ops p = w ++ rest ∧ w.length = m ∧
      Follows wire plan (Function.update past p (past p ++ w)) (Function.update ops p rest) queue'
        { c with
          proc := Function.update c.proc p (.write d (bs.drop m) k)
          inbox := Function.update c.inbox (wire (p, d)) (c.inbox (wire (p, d)) ++ bs.take m) } := by
  have hdoes := h.does p
  rw [hp] at hdoes
  obtain ⟨as', has, hrest⟩ := hdoes.write_chunk hm
  obtain ⟨w, rest, hops, hw, rfl⟩ := List.map_eq_append_iff.mp has
  have hsent : (picks (Act.sent? d) w).map Prod.snd = bs.take m := picks_eq_map (fun b => if_pos rfl) hw
  have hother : ∀ d', d' ≠ d → picks (Act.sent? d') w = [] := fun d' hd =>
    picks_eq_nil (fun b => if_neg (Ne.symm hd)) hw
  have hreceived : ∀ d', picks (Act.received? d') w = [] := fun d' => picks_eq_nil (fun b => rfl) hw
  have hnoted : notes w = [] := picks_eq_nil (fun b => rfl) hw
  refine ⟨w, rest, Function.update queue (wire (p, d)) (queue (wire (p, d)) ++ picks (Act.sent? d) w), hops, ?_, ?_⟩
  · rw [← List.length_map (f := Prod.snd), hw, List.length_map, List.length_take, Nat.min_eq_left hm]
  · refine h.advance hops (fun q hq => Function.update_of_ne hq _ _) ?_ (fun e => ?_) (fun e => ?_) (fun q => ?_)
    · dsimp only
      rwa [Function.update_self]
    · dsimp only
      by_cases he : e = wire (p, d)
      · subst he
        rw [Function.update_self, Function.update_self, List.map_append, h.inbox, hsent]
      · rw [Function.update_of_ne he, Function.update_of_ne he, h.inbox]
    · have hmatched := h.matched e
      unfold sends recvs at hmatched ⊢
      rw [picks_update_of_nil hops (hreceived _)]
      by_cases he : e = wire (p, d)
      · subst he
        rw [hwire (p, d)] at hmatched ⊢
        rw [picks_update _ hops, if_pos rfl, ← List.append_assoc] at hmatched
        rwa [Function.update_self]
      · have hback : wire e ≠ (p, d) := fun hback => he (by rw [← hback, hwire])
        have hsame : picks (Act.sent? (wire e).2) (Function.update ops p rest (wire e).1) =
            picks (Act.sent? (wire e).2) (ops (wire e).1) := by
          by_cases hd : (wire e).2 = d
          · have hq : (wire e).1 ≠ p := fun hq => hback (Prod.ext hq hd)
            rw [Function.update_of_ne hq]
          · exact picks_update_of_nil hops (hother _ hd) _
        rwa [hsame, Function.update_of_ne he]
    · rw [hnoted, List.map_nil, ite_self, List.append_nil]

/-- A chunk of a read: it is what the script says. -/
theorem read (h : Follows wire plan past ops queue c) {d : D} {n : Nat} {got : List β}
    {k : List β → Process D β N α} (hp : c.proc p = .readExact d n got k) (hmn : m ≤ n)
    (hm : m ≤ (c.inbox (p, d)).length) :
    ∃ w rest queue', ops p = w ++ rest ∧ w.length = m ∧
      Follows wire plan (Function.update past p (past p ++ w)) (Function.update ops p rest) queue'
        { c with
          proc := Function.update c.proc p (.readExact d (n - m) (got ++ (c.inbox (p, d)).take m) k)
          inbox := Function.update c.inbox (p, d) ((c.inbox (p, d)).drop m) } := by
  have hdoes := h.does p
  rw [hp] at hdoes
  obtain ⟨bs, as', hlen, has, hrest⟩ := hdoes.read_chunk hmn
  obtain ⟨w, rest, hops, hw, rfl⟩ := List.map_eq_append_iff.mp has
  have hreceived : (picks (Act.received? d) w).map Prod.snd = bs := picks_eq_map (fun b => if_pos rfl) hw
  have hother : ∀ d', d' ≠ d → picks (Act.received? d') w = [] := fun d' hd =>
    picks_eq_nil (fun b => if_neg (Ne.symm hd)) hw
  have hsent : ∀ d', picks (Act.sent? d') w = [] := fun d' => picks_eq_nil (fun b => rfl) hw
  have hnoted : notes w = [] := picks_eq_nil (fun b => rfl) hw
  have hcount : (picks (Act.received? d) w).length = m := by
    rw [← hlen, ← hreceived, List.length_map]
  have hqueue : m ≤ (queue (p, d)).length := by
    rw [← h.inbox, List.length_map] at hm
    exact hm
  -- the elements at the front of the queue are those of the read
  have hmatched := h.matched (p, d)
  unfold sends recvs at hmatched
  rw [picks_update (Act.received? d) hops p, if_pos rfl, List.append_assoc] at hmatched
  have hfront : List.Forall₂ Matches ((queue (p, d)).take m) (picks (Act.received? d) w) := by
    have htake := List.forall₂_take m hmatched
    rwa [List.take_append_of_le_length hqueue, List.take_left' hcount] at htake
  have hback := List.forall₂_drop m hmatched
  rw [List.drop_append_of_le_length hqueue, List.drop_left' hcount] at hback
  have hbytes : (c.inbox (p, d)).take m = bs := by
    rw [← h.inbox, ← List.map_take, ← hreceived]
    exact map_snd_eq hfront
  refine ⟨w, rest, Function.update queue (p, d) ((queue (p, d)).drop m), hops, ?_, ?_⟩
  · rw [← List.length_map (f := Prod.snd), hw, List.length_map, hlen]
  · refine h.advance hops (fun q hq => Function.update_of_ne hq _ _) ?_ (fun e => ?_) (fun e => ?_) (fun q => ?_)
    · dsimp only
      rwa [Function.update_self, hbytes]
    · dsimp only
      by_cases he : e = (p, d)
      · subst he
        rw [Function.update_self, Function.update_self, List.map_drop, h.inbox]
      · rw [Function.update_of_ne he, Function.update_of_ne he, h.inbox]
    · unfold sends recvs
      rw [picks_update_of_nil hops (hsent _)]
      by_cases he : e = (p, d)
      · subst he
        rwa [Function.update_self]
      · have hsame : picks (Act.received? e.2) (Function.update ops p rest e.1) =
            picks (Act.received? e.2) (ops e.1) := by
          by_cases hd : e.2 = d
          · have hq : e.1 ≠ p := fun hq => he (Prod.ext hq hd)
            rw [Function.update_of_ne hq]
          · exact picks_update_of_nil hops (hother _ hd) _
        rw [hsame, Function.update_of_ne he]
        exact h.matched e
    · rw [hnoted, List.map_nil, ite_self, List.append_nil]

omit [DecidableEq D] in
theorem sum_update_lt [Fintype P] {w rest : List (Nat × Act D β N)} (hops : ops p = w ++ rest) (hw : 0 < w.length) :
    ∑ q, (Function.update ops p rest q).length < ∑ q, (ops q).length := by
  refine Finset.sum_lt_sum (fun q _ => ?_) ⟨p, Finset.mem_univ p, ?_⟩
  · by_cases hq : q = p
    · subst hq
      rw [Function.update_self, hops, List.length_append]
      omega
    · rw [Function.update_of_ne hq]
  · rw [Function.update_self, hops, List.length_append]
    omega

/-- A process that has operations to do makes a step: it does some of them. -/
theorem preserved [Fintype P] (hwire : Function.Involutive wire) (h : Follows wire plan past ops queue c)
    (ht : StreamNetwork.step wire c (p, m) = some t) (hne : ops p ≠ []) : ∃ past' ops' queue',
      Follows wire plan past' ops' queue' t ∧ ∑ q, (ops' q).length < ∑ q, (ops q).length := by
  obtain ⟨x, rest, hops⟩ := List.exists_cons_of_ne_nil hne
  have hdoes := h.does p
  rw [hops, List.map_cons] at hdoes
  have hcons : ops p = [x] ++ rest := hops
  unfold StreamNetwork.step at ht
  dsimp only at ht
  cases hp : c.proc p with
  | pure a =>
    rw [hp] at ht
    cases ht
  | read d max k =>
    rw [hp] at hdoes
    exact absurd trivial hdoes.not_halted
  | note e k =>
    rw [hp] at ht hdoes
    cases ht
    obtain ⟨r, a⟩ := x
    cases hdoes with
    | note hk =>
      refine ⟨_, _, _, h.silent hops (fun _ => rfl) (fun _ => rfl) (fun q hq => Function.update_of_ne hq _ _) ?_ rfl ?_,
        sum_update_lt hcons Nat.one_pos⟩
      · dsimp only
        rwa [Function.update_self]
      · intro q
        unfold notesOf
        rw [List.filterMap_append]
        by_cases hq : q = p
        · subst hq
          simp [notes, picks, Act.noted?]
        · simp [hq, Ne.symm hq]
  | write d bs k =>
    rw [hp] at ht
    dsimp only at ht
    by_cases hbs : bs = []
    · rw [if_pos hbs] at ht
      cases ht
      rw [hp, hbs] at hdoes
      obtain ⟨r, a⟩ := x
      cases hdoes with
      | written hk =>
        refine ⟨_, _, _, h.silent hops (fun _ => rfl) (fun _ => rfl) (fun q hq => Function.update_of_ne hq _ _) ?_ rfl
          ?_, sum_update_lt hcons Nat.one_pos⟩
        · dsimp only
          rwa [Function.update_self]
        · intro q
          simp [notes, picks, Act.noted?]
    · rw [if_neg hbs] at ht
      split at ht
      next hm =>
        cases ht
        obtain ⟨w, rest, queue', hops, hw, hfollows⟩ := h.write hwire hp hm.2
        exact ⟨_, _, queue', hfollows, sum_update_lt hops (hw ▸ hm.1)⟩
      next => cases ht
  | readExact d n got k =>
    rw [hp] at ht
    dsimp only at ht
    by_cases hn : n = 0
    · rw [if_pos hn] at ht
      cases ht
      rw [hp, hn] at hdoes
      obtain ⟨r, a⟩ := x
      cases hdoes with
      | filled hk =>
        refine ⟨_, _, _, h.silent hops (fun _ => rfl) (fun _ => rfl) (fun q hq => Function.update_of_ne hq _ _) ?_ rfl
          ?_, sum_update_lt hcons Nat.one_pos⟩
        · dsimp only
          rwa [Function.update_self]
        · intro q
          simp [notes, picks, Act.noted?]
    · rw [if_neg hn] at ht
      split at ht
      next hm =>
        cases ht
        obtain ⟨w, rest, queue', hops, hw, hfollows⟩ := h.read hp hm.2.1 hm.2.2
        exact ⟨_, _, queue', hfollows, sum_update_lt hops (hw ▸ hm.1)⟩
      next => cases ht

/-- A process with nothing left to do has halted as the plan says. -/
theorem proc_eq (h : Follows wire plan past ops queue c) (hp : ops p = []) : c.proc p = plan.final p := by
  have hdoes := h.does p
  rw [hp] at hdoes
  exact hdoes.eq_of_nil

theorem sorted_ops (h : Follows wire plan past ops queue c)
    (hsorted : ∀ p, (plan.script p).Pairwise fun x y => x.1 ≤ y.1) (p : P) :
    (ops p).Pairwise fun x y => x.1 ≤ y.1 := by
  have hp := hsorted p
  rw [h.script] at hp
  exact (List.pairwise_append.mp hp).2.1

/-- A process that has halted has done everything. -/
theorem final_of_halted (h : Follows wire plan past ops queue c) (hhalted : (c.proc p).Halted) :
    ops p = [] ∧ c.proc p = plan.final p := by
  have hdoes := h.does p
  cases hp : ops p with
  | nil => exact ⟨rfl, h.proc_eq hp⟩
  | cons x rest =>
    rw [hp] at hdoes
    exact absurd hhalted hdoes.not_halted

/-- What comes at an earlier stage than something that is done is done. -/
theorem mem_past_of_lt (h : Follows wire plan past ops queue c)
    (hsorted : ∀ p, (plan.script p).Pairwise fun x y => x.1 ≤ y.1) {x y : Nat × Act D β N} (hx : x ∈ past p)
    (hy : y ∈ plan.script p) (hlt : y.1 < x.1) : y ∈ past p := by
  have hp := hsorted p
  rw [h.script] at hy hp
  refine (List.mem_append.mp hy).resolve_right fun hops => ?_
  have hle := (List.pairwise_append.mp hp).2.2 x hx y hops
  omega

/-- A process that has operations to do and cannot make a step waits for an element. -/
theorem waits_of_stuck (h : Follows wire plan past ops queue c) {x : Nat × Act D β N} {rest : List (Nat × Act D β N)}
    (hops : ops p = x :: rest) (hstuck : ∀ m, StreamNetwork.step wire c (p, m) = none) :
    ∃ d b, x.2 = .recv d b ∧ queue (p, d) = [] := by
  have hdoes := h.does p
  rw [hops, List.map_cons] at hdoes
  have hone := hstuck 1
  unfold StreamNetwork.step at hone
  dsimp only at hone
  cases hp : c.proc p with
  | pure a =>
    rw [hp] at hdoes
    exact absurd trivial hdoes.not_halted
  | read d max k =>
    rw [hp] at hdoes
    exact absurd trivial hdoes.not_halted
  | note e k =>
    rw [hp] at hone
    cases hone
  | write d bs k =>
    rw [hp] at hone
    dsimp only at hone
    by_cases hbs : bs = []
    · rw [if_pos hbs] at hone
      cases hone
    · rw [if_neg hbs, if_pos ⟨Nat.one_pos, List.length_pos_iff.mpr hbs⟩] at hone
      cases hone
  | readExact d n got k =>
    rw [hp] at hone hdoes
    dsimp only at hone
    by_cases hn : n = 0
    · rw [if_pos hn] at hone
      cases hone
    · rw [if_neg hn] at hone
      have hempty : c.inbox (p, d) = [] := by
        by_contra hne
        rw [if_pos ⟨Nat.one_pos, Nat.one_le_iff_ne_zero.mpr hn, List.length_pos_iff.mpr hne⟩] at hone
        cases hone
      have hqueue : queue (p, d) = [] := by
        rw [← h.inbox] at hempty
        exact List.map_eq_nil_iff.mp hempty
      obtain ⟨r, a⟩ := x
      cases hdoes with
      | filled _ => exact absurd rfl hn
      | @recv _ _ b _ _ _ _ _ => exact ⟨d, b, rfl, hqueue⟩

/-- **No deadlock**: when the stages of all scripts go up, the process at the lowest stage can make a step. -/
theorem progress (h : Follows wire plan past ops queue c)
    (hsorted : ∀ p, (plan.script p).Pairwise fun x y => x.1 ≤ y.1) :
    (∀ p, ops p = []) ∨ ∃ p m t, ops p ≠ [] ∧ StreamNetwork.step wire c (p, m) = some t := by
  classical
  by_contra hnot
  push Not at hnot
  obtain ⟨⟨p₀, hp₀⟩, hstuck⟩ := hnot
  -- the lowest stage a process is at
  have hstage : ∃ r p x rest, ops p = x :: rest ∧ x.1 = r := by
    obtain ⟨x, rest, hx⟩ := List.exists_cons_of_ne_nil hp₀
    exact ⟨x.1, p₀, x, rest, hx, rfl⟩
  obtain ⟨p, x, rest, hops, hx⟩ := Nat.find_spec hstage
  have hnone : ∀ m, StreamNetwork.step wire c (p, m) = none := by
    intro m
    rw [Option.eq_none_iff_forall_ne_some]
    exact fun t => hstuck p m t (hops ▸ List.cons_ne_nil _ _)
  obtain ⟨d, b, hrecv, hqueue⟩ := h.waits_of_stuck hops hnone
  have hmatched := h.matched (p, d)
  have hfirst : recvs d (ops p) = (x.1, b) :: recvs d rest := by
    unfold recvs picks
    rw [hops, List.filterMap_cons, hrecv]
    simp [Act.received?]
  rw [hqueue, List.nil_append, hfirst, List.cons_append] at hmatched
  obtain ⟨y, l, hy, -, hsends⟩ := List.forall₂_cons_right_iff.mp hmatched
  -- the element it waits for is sent one stage earlier
  obtain ⟨r, b'⟩ := y
  have hmem : (r, b') ∈ sends (wire (p, d)).2 (ops (wire (p, d)).1) := hsends ▸ List.mem_cons_self
  obtain ⟨a, ha, -⟩ := mem_picks.mp hmem
  obtain ⟨y, rest', hq⟩ := List.exists_cons_of_ne_nil (List.ne_nil_of_mem ha)
  have hle : y.1 ≤ r := by
    have hsortedq := h.sorted_ops hsorted (wire (p, d)).1
    rw [hq] at ha hsortedq
    rcases List.mem_cons.mp ha with heq | ha
    · rw [← heq]
    · exact (List.pairwise_cons.mp hsortedq).1 _ ha
  have hmin := Nat.find_min' hstage ⟨_, y, rest', hq, rfl⟩
  have hr : r + 1 = x.1 := hy.1
  omega

/-- What a process has noted down is what it has done. -/
theorem mem_log_iff (h : Follows wire plan past ops queue c) {e : N} :
    (p, e) ∈ c.log ↔ ∃ r, (r, .note e) ∈ past p := by
  have hnotes : e ∈ notesOf p c.log ↔ (p, e) ∈ c.log := by
    unfold notesOf
    rw [List.mem_filterMap]
    constructor
    · rintro ⟨⟨q, e'⟩, hmem, hpick⟩
      dsimp only at hpick
      by_cases hq : q = p
      · rw [if_pos hq] at hpick
        cases hpick
        rwa [← hq]
      · rw [if_neg hq] at hpick
        cases hpick
    · intro hmem
      exact ⟨(p, e), hmem, if_pos rfl⟩
  rw [← hnotes, h.log, List.mem_map]
  constructor
  · rintro ⟨⟨r, e'⟩, hmem, rfl⟩
    obtain ⟨a, ha, hnote⟩ := mem_picks.mp hmem
    cases a with
    | note e =>
      cases hnote
      exact ⟨r, ha⟩
    | _ => cases hnote
  · rintro ⟨r, hmem⟩
    exact ⟨(r, e), mem_picks.mpr ⟨_, hmem, rfl⟩, rfl⟩

/-- What a process has received was sent before: an element whose stage the receiver has left behind. -/
theorem sent (h : Follows wire plan past ops queue c)
    (hsorted : ∀ p, (plan.script p).Pairwise fun x y => x.1 ≤ y.1) {d d' : D} {q : P} (hwire : wire (p, d) = (q, d'))
    (hextra : plan.extra (p, d) = []) {x : Nat × Act D β N} (hx : x ∈ past p) {r : Nat} {b : β}
    (hsend : (r, .send d' b) ∈ plan.script q) (hlt : r + 1 < x.1) : (r, .send d' b) ∈ past q := by
  rw [h.script] at hsend
  refine (List.mem_append.mp hsend).resolve_right fun hops => ?_
  have hmem : (r, b) ∈ queue (p, d) ++ sends d' (ops q) :=
    List.mem_append_right _ (mem_picks.mpr ⟨_, hops, if_pos rfl⟩)
  have hmatched := h.matched (p, d)
  rw [hwire, hextra, List.append_nil] at hmatched
  obtain ⟨y, hy, hry⟩ := exists_match hmatched hmem
  obtain ⟨a, ha, -⟩ := mem_picks.mp hy
  have hp := hsorted p
  rw [h.script] at hp
  have hle : x.1 ≤ y.1 := (List.pairwise_append.mp hp).2.2 x hx _ ha
  have hr : r + 1 = y.1 := hry.1
  omega

/-- The start, with everything to do. -/
theorem of_start {x : P → Process D β N α} (hdoes : ∀ p, Does (x p) ((plan.script p).map Prod.snd) (plan.final p))
    (hmatched : ∀ e, List.Forall₂ Matches (sends (wire e).2 (plan.script (wire e).1))
      (recvs e.2 (plan.script e.1) ++ plan.extra e)) :
    Follows wire plan (fun _ => []) plan.script (fun _ => []) (start x) where
  script _ := rfl
  does := hdoes
  inbox _ := rfl
  matched := hmatched
  log _ := rfl

/-- The end, with nothing left to do: the processes have halted, and what is left on the ports is what the plan says. -/
theorem complete (h : Follows wire plan past ops queue c) (hnil : ∀ p, ops p = []) :
    c.proc = plan.final ∧ (∀ e, c.inbox e = (plan.extra e).map Prod.snd) ∧
      ∀ p, notesOf p c.log = (notes (plan.script p)).map Prod.snd := by
  refine ⟨funext fun p => h.proc_eq (hnil p), fun e => ?_, fun p => ?_⟩
  · have hmatched := h.matched e
    unfold sends recvs at hmatched
    rw [hnil, hnil] at hmatched
    rw [← h.inbox]
    refine map_snd_eq ?_
    simpa [picks] using hmatched
  · rw [h.log, h.script, hnil, List.append_nil]

/-- A single read of a process that has done everything else: it takes a chunk of what is left on the port. -/
theorem readOnce (h : Follows wire plan past ops queue c) (hnil : ops p = []) {d : D} {max : Nat}
    {k : List β → Process D β N α} (hp : plan.final p = .read d max k)
    (ht : StreamNetwork.step wire c (p, m) = some t) (hk : ∀ bs, (k bs).Halted) :
    0 < m ∧ m ≤ max ∧ ∃ queue', Follows wire { plan with
      final := Function.update plan.final p (k (((plan.extra (p, d)).take m).map Prod.snd))
      extra := Function.update plan.extra (p, d) ((plan.extra (p, d)).drop m) } past ops queue' t := by
  have hproc := h.proc_eq hnil
  rw [hp] at hproc
  unfold StreamNetwork.step at ht
  dsimp only at ht
  rw [hproc] at ht
  dsimp only at ht
  split at ht
  next hm =>
    cases ht
    obtain ⟨hpos, hmax, hlen⟩ := hm
    rw [← h.inbox, List.length_map] at hlen
    have hmatched := h.matched (p, d)
    have hnone : recvs d (ops p) = [] := by
      rw [hnil]
      rfl
    rw [hnone, List.nil_append] at hmatched
    have hfront := List.forall₂_take m hmatched
    rw [List.take_append_of_le_length hlen] at hfront
    have hback := List.forall₂_drop m hmatched
    rw [List.drop_append_of_le_length hlen] at hback
    have hbytes : (c.inbox (p, d)).take m = ((plan.extra (p, d)).take m).map Prod.snd := by
      rw [← h.inbox, ← List.map_take]
      exact map_snd_eq hfront
    refine ⟨hpos, hmax, Function.update queue (p, d) ((queue (p, d)).drop m), h.script, fun q => ?_, fun e => ?_,
      fun e => ?_, h.log⟩
    · dsimp only
      by_cases hq : q = p
      · subst hq
        rw [Function.update_self, Function.update_self, hnil, hbytes]
        exact .done (hk _)
      · rw [Function.update_of_ne hq, Function.update_of_ne hq]
        exact h.does q
    · dsimp only
      by_cases he : e = (p, d)
      · subst he
        rw [Function.update_self, Function.update_self, List.map_drop, h.inbox]
      · rw [Function.update_of_ne he, Function.update_of_ne he, h.inbox]
    · dsimp only
      by_cases he : e = (p, d)
      · subst he
        rwa [Function.update_self, Function.update_self, hnone]
      · rw [Function.update_of_ne he, Function.update_of_ne he]
        exact h.matched e
  next => cases ht

/-- A run of processes that return when they have done everything: there are at most as many steps as operations. -/
theorem run [Fintype P] (hwire : Function.Involutive wire) (hfinal : ∀ p, ∃ a, plan.final p = .pure a)
    {as : List (P × Nat)} (hrun : Transition.run (StreamNetwork.step wire) c as = some t)
    (h : Follows wire plan past ops queue c) : ∃ past' ops' queue',
      Follows wire plan past' ops' queue' t ∧ as.length + ∑ p, (ops' p).length ≤ ∑ p, (ops p).length := by
  induction as generalizing c past ops queue with
  | nil =>
    cases hrun
    exact ⟨past, ops, queue, h, by simp⟩
  | cons a as ih =>
    obtain ⟨u, hu, hrest⟩ := Option.bind_eq_some_iff.mp hrun
    obtain ⟨p, m⟩ := a
    have hne : ops p ≠ [] := by
      intro hnil
      obtain ⟨a, ha⟩ := hfinal p
      have hproc := (h.proc_eq hnil).trans ha
      unfold StreamNetwork.step at hu
      dsimp only at hu
      rw [hproc] at hu
      cases hu
    obtain ⟨past₁, ops₁, queue₁, h₁, hlt⟩ := h.preserved hwire hu hne
    obtain ⟨past', ops', queue', h', hle⟩ := ih hrest h₁
    refine ⟨past', ops', queue', h', ?_⟩
    rw [List.length_cons]
    omega

end Follows

end Network

end StreamNetwork
