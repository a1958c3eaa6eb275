import Mathlib.Data.List.Basic
import Mathlib.Tactic.Common

/-!
# Reading from a chunked stream

A stream is the list of the chunks in which its elements come in. `Stream.readExact n` takes the next `n` elements
out of it, however they are cut into chunks. `Stream.Reads p bs a` says that the reader `p` takes the elements `bs`
off any stream that begins with them and returns `a`; readers are put together by `Reads.bind`.

A reader that runs for ever, `Stream.loop`, works through the frames of a stream one by one (`loop_frames`).
-/

namespace Stream

/-- Why a reader has not returned: it waits for more, with the elements `got` of the read it is in, or it has
failed. -/
inductive ReadEnd (β ε : Type) where
  | starved (got : List β)
  | failed (e : ε)
  deriving DecidableEq

/-- A reader takes elements off the front of a stream. -/
abbrev Reader (β ε α : Type) := StateT (List (List β)) (Except (ReadEnd β ε)) α

variable {β ε α γ σ : Type}

/-- Take `n` more elements, after the elements `got`. -/
def fill : Nat → List β → List (List β) → Except (ReadEnd β ε) (List β × List (List β))
  | 0, got, chunks => .ok (got, chunks)
  | _ + 1, got, [] => .error (.starved got)
  | n + 1, got, chunk :: chunks =>
    if chunk.length ≤ n + 1 then fill (n + 1 - chunk.length) (got ++ chunk) chunks
    else .ok (got ++ chunk.take (n + 1), chunk.drop (n + 1) :: chunks)

/-- `read_exact` of `n` elements. -/
def readExact (n : Nat) : Reader β ε (List β) := fill n []

/-- End with an error. -/
def fail (e : ε) : Reader β ε α := fun _ => .error (.failed e)

/-- A step that does not read. -/
def lift (r : Except ε α) : Reader β ε α := fun chunks =>
  match r with
  | .ok a => .ok (a, chunks)
  | .error e => .error (.failed e)

/-- The reader takes exactly `bs` off a stream that begins with `bs`, and returns `a`. -/
def Reads (p : Reader β ε α) (bs : List β) (a : α) : Prop :=
  ∀ chunks rest, chunks.flatten = bs ++ rest → ∃ chunks', p chunks = .ok (a, chunks') ∧ chunks'.flatten = rest

/-- The reader fails with `e` on a stream that begins with `bs`. -/
def Fails (p : Reader β ε α) (bs : List β) (e : ε) : Prop :=
  ∀ chunks rest, chunks.flatten = bs ++ rest → p chunks = .error (.failed e)

/-- The reader waits when there is nothing to read. -/
def Starves (p : Reader β ε α) : Prop := ∀ chunks, chunks.flatten = [] → p chunks = .error (.starved [])

theorem fill_eq {n : Nat} {got bs rest : List β} {chunks : List (List β)} (hn : bs.length = n)
    (h : chunks.flatten = bs ++ rest) :
    ∃ chunks', (fill n got chunks : Except (ReadEnd β ε) _) = .ok (got ++ bs, chunks') ∧ chunks'.flatten = rest := by
  induction chunks generalizing n got bs with
  | nil =>
    obtain ⟨rfl, rfl⟩ := List.append_eq_nil_iff.mp h.symm
    subst hn
    exact ⟨[], by simp [fill], rfl⟩
  | cons chunk chunks ih =>
    cases n with
    | zero =>
      obtain rfl := List.length_eq_zero_iff.mp hn
      exact ⟨chunk :: chunks, by simp [fill], h⟩
    | succ n =>
      rw [List.flatten_cons] at h
      unfold fill
      by_cases hchunk : chunk.length ≤ n + 1
      · -- the chunk is a part of what is read
        rw [if_pos hchunk]
        obtain ⟨tail, hbs, hrest⟩ : ∃ tail, bs = chunk ++ tail ∧ chunks.flatten = tail ++ rest :=
          (List.append_eq_append_iff.mp h).elim (fun ⟨as, h1, h2⟩ => ⟨as, h1, h2⟩) fun ⟨cs, h1, h2⟩ => by
            have hcs : cs = [] := by
              have := congrArg List.length h1
              rw [List.length_append] at this
              exact List.length_eq_zero_iff.mp (by omega)
            subst hcs
            exact ⟨[], by simpa using h1.symm, by simpa using h2.symm⟩
        subst hbs
        rw [List.length_append] at hn
        obtain ⟨chunks', hfill, hflat⟩ := ih (n := n + 1 - chunk.length) (by omega) hrest
        exact ⟨chunks', by rw [hfill, List.append_assoc], hflat⟩
      · -- the read ends inside of the chunk
        rw [if_neg hchunk]
        have hlen : n + 1 ≤ chunk.length := by omega
        have htake : chunk.take (n + 1) = bs := by
          have := congrArg (List.take (n + 1)) h
          rw [List.take_append_of_le_length hlen, List.take_left' hn] at this
          exact this
        have hdrop : chunk.drop (n + 1) ++ chunks.flatten = rest := by
          have := congrArg (List.drop (n + 1)) h
          rw [List.drop_append_of_le_length hlen, List.drop_left' hn] at this
          exact this
        exact ⟨chunk.drop (n + 1) :: chunks, by rw [htake], by rw [List.flatten_cons, hdrop]⟩

theorem reads_readExact {n : Nat} {bs : List β} (hn : bs.length = n) :
    Reads (readExact n : Reader β ε (List β)) bs bs := by
  intro chunks rest h
  obtain ⟨chunks', hfill, hflat⟩ := fill_eq hn h
  exact ⟨chunks', hfill, hflat⟩

theorem starves_readExact {n : Nat} (hn : 0 < n) : Starves (readExact n : Reader β ε (List β)) := by
  obtain ⟨m, rfl⟩ := Nat.exists_eq_succ_of_ne_zero (Nat.ne_of_gt hn)
  intro chunks h
  induction chunks with
  | nil => rfl
  | cons chunk chunks ih =>
    obtain ⟨rfl, hchunks⟩ := List.append_eq_nil_iff.mp h
    have hchunk := ih hchunks
    unfold readExact at hchunk ⊢
    unfold fill
    have hempty : ([] : List β).length ≤ m + 1 := Nat.zero_le _
    rw [if_pos hempty]
    exact hchunk

theorem reads_pure (a : α) : Reads (pure a : Reader β ε α) [] a := by
  intro chunks rest h
  exact ⟨chunks, rfl, h⟩

theorem reads_lift {r : Except ε α} {a : α} (h : r = .ok a) : Reads (lift r : Reader β ε α) [] a := by
  subst h
  intro chunks rest h
  exact ⟨chunks, rfl, h⟩

theorem fails_lift {r : Except ε α} {e : ε} (h : r = .error e) : Fails (lift r : Reader β ε α) [] e := by
  subst h
  intro chunks rest _
  rfl

theorem fails_fail (e : ε) : Fails (fail e : Reader β ε α) [] e := by
  intro chunks rest _
  rfl

theorem Reads.bind {p : Reader β ε α} {f : α → Reader β ε γ} {bs cs : List β} {a : α} {c : γ}
    (hp : Reads p bs a) (hf : Reads (f a) cs c) : Reads (p >>= f) (bs ++ cs) c := by
  intro chunks rest h
  rw [List.append_assoc] at h
  obtain ⟨chunks', hok, hflat⟩ := hp chunks _ h
  obtain ⟨chunks'', hok', hflat'⟩ := hf chunks' rest hflat
  refine ⟨chunks'', ?_, hflat'⟩
  show (p chunks >>= fun r => f r.1 r.2) = _
  rw [hok]
  exact hok'

/-- A first step that does not read. -/
theorem Reads.bind_nil {p : Reader β ε α} {f : α → Reader β ε γ} {cs : List β} {a : α} {c : γ}
    (hp : Reads p [] a) (hf : Reads (f a) cs c) : Reads (p >>= f) cs c := hp.bind hf

theorem Reads.bind_fails {p : Reader β ε α} {f : α → Reader β ε γ} {bs cs : List β} {a : α} {e : ε}
    (hp : Reads p bs a) (hf : Fails (f a) cs e) : Fails (p >>= f) (bs ++ cs) e := by
  intro chunks rest h
  rw [List.append_assoc] at h
  obtain ⟨chunks', hok, hflat⟩ := hp chunks _ h
  show (p chunks >>= fun r => f r.1 r.2) = _
  rw [hok]
  exact hf chunks' rest hflat

theorem Fails.bind {p : Reader β ε α} {bs : List β} {e : ε} (hp : Fails p bs e) (f : α → Reader β ε γ) :
    Fails (p >>= f) bs e := by
  intro chunks rest h
  show (p chunks >>= fun r => f r.1 r.2) = _
  rw [hp chunks rest h]
  rfl

theorem Starves.bind {p : Reader β ε α} (hp : Starves p) (f : α → Reader β ε γ) : Starves (p >>= f) := by
  intro chunks h
  show (p chunks >>= fun r => f r.1 r.2) = _
  rw [hp chunks h]
  rfl

/-- Repeat a reader that updates a state, at most `fuel` times: the last state, and why it has not gone on. -/
def loop (body : σ → Reader β ε σ) : Nat → σ → List (List β) → σ × Option (ReadEnd β ε)
  | 0, s, _ => (s, none)
  | fuel + 1, s, chunks =>
    match body s chunks with
    | .error e => (s, some e)
    | .ok (s', chunks') => loop body fuel s' chunks'

/-- The loop works through the frames at the front of a stream up to the first one that is not accepted. At that
frame it ends with an error; without one it waits for more at the end of the stream. -/
theorem loop_frames {body : σ → Reader β ε σ} {Inv : σ → Prop} {frame : α → List β} {next : σ → α → σ}
    {accepts : α → Bool} {err : α → ε} (hstarves : ∀ s, Starves (body s)) (as : List α)
    (hreads : ∀ s, Inv s → ∀ a ∈ as, accepts a = true → Reads (body s) (frame a) (next s a) ∧ Inv (next s a))
    (hfails : ∀ s, Inv s → ∀ a ∈ as, accepts a = false →
      ∃ bad rest, frame a = bad ++ rest ∧ Fails (body s) bad (err a))
    {s : σ} (hs : Inv s) {chunks : List (List β)}
    (hflat : chunks.flatten = (as.map frame).flatten) {fuel : Nat} (hfuel : as.length < fuel) :
    loop body fuel s chunks = ((as.takeWhile accepts).foldl next s,
      some (match as.find? fun a => !accepts a with
        | none => .starved []
        | some a => .failed (err a))) := by
  induction as generalizing s chunks fuel with
  | nil =>
    obtain ⟨fuel, rfl⟩ := Nat.exists_eq_add_of_lt hfuel
    rw [loop, hstarves s chunks hflat]
    rfl
  | cons a as ih =>
    obtain ⟨fuel, rfl⟩ := Nat.exists_eq_add_of_lt hfuel
    rw [List.map_cons, List.flatten_cons] at hflat
    cases haccepts : accepts a with
    | true =>
      obtain ⟨hread, hnext⟩ := hreads s hs a List.mem_cons_self haccepts
      obtain ⟨chunks', hok, hflat'⟩ := hread chunks _ hflat
      have hfind : (a :: as).find? (fun a => !accepts a) = as.find? fun a => !accepts a := by
        rw [List.find?_cons, haccepts]
        rfl
      rw [loop, hok, List.takeWhile_cons_of_pos haccepts, hfind]
      exact ih (fun s hs b hb => hreads s hs b (List.mem_cons_of_mem _ hb))
        (fun s hs b hb => hfails s hs b (List.mem_cons_of_mem _ hb)) hnext hflat' (by rw [List.length_cons]; omega)
    | false =>
      obtain ⟨bad, rest, hbad, hfail⟩ := hfails s hs a List.mem_cons_self haccepts
      rw [hbad, List.append_assoc] at hflat
      have hfind : (a :: as).find? (fun a => !accepts a) = some a := by
        rw [List.find?_cons, haccepts]
        rfl
      rw [loop, hfail chunks _ hflat, List.takeWhile_cons_of_neg (by rw [haccepts]; decide), hfind]
      rfl

end Stream
