/-
# Transcripts

A component with a state is used through calls, one after the other.  The transcript of
a list of calls is the list of replies, each given by the state that the earlier calls
left behind.  A call that fails is a reply like any other, and the calls after it are
still made.

Main facts: `transcript_append` and `length_transcript`, `transcript_related`, which compares two
components, `getElem?_transcript`, which finds the reply to a call by its number, and
`transcript_eraseIdx`, which leaves out a call that changes nothing.
-/
namespace MinCut

/-- The replies to a list of calls made on `s`, and the state after the last of them. -/
def transcript {σ κ ρ : Type} (call : σ → κ → ρ × σ) (s : σ) : List κ → List ρ × σ
  | [] => ([], s)
  | c :: cs =>
    let answer := call s c
    let rest := transcript call answer.2 cs
    (answer.1 :: rest.1, rest.2)

/-- Keeps the state when a call fails, and the new state when it succeeds. -/
def keepOnFault {σ ρ ε : Type} (s : σ) : Except ε (ρ × σ) → Except ε ρ × σ
  | .ok (r, s') => (.ok r, s')
  | .error e => (.error e, s)

/-- There is one reply to each call. -/
theorem length_transcript {σ κ ρ : Type} (call : σ → κ → ρ × σ) (s : σ) (cs : List κ) :
    (transcript call s cs).1.length = cs.length := by
  induction cs generalizing s with
  | nil => rfl
  | cons c cs ih => simp [transcript, ih]

/-- Calls made in two batches are answered as in one. -/
theorem transcript_append {σ κ ρ : Type} (call : σ → κ → ρ × σ) (s : σ) (cs ds : List κ) :
    transcript call s (cs ++ ds) =
      ((transcript call s cs).1 ++ (transcript call (transcript call s cs).2 ds).1,
        (transcript call (transcript call s cs).2 ds).2) := by
  induction cs generalizing s with
  | nil => rfl
  | cons c cs ih => simp [transcript, ih]

/-- **Two components answer alike** if related states answer every call alike and stay related. -/
theorem transcript_related {σ τ κ ρ : Type} {call : σ → κ → ρ × σ} {call' : τ → κ → ρ × τ}
    {R : σ → τ → Prop}
    (hcall : ∀ s t c, R s t → (call s c).1 = (call' t c).1 ∧ R (call s c).2 (call' t c).2)
    {s : σ} {t : τ} (h : R s t) (cs : List κ) :
    (transcript call s cs).1 = (transcript call' t cs).1 ∧
      R (transcript call s cs).2 (transcript call' t cs).2 := by
  induction cs generalizing s t with
  | nil => exact ⟨rfl, h⟩
  | cons c cs ih =>
    obtain ⟨hreply, hnext⟩ := hcall s t c h
    obtain ⟨hreplies, hlast⟩ := ih hnext
    refine ⟨?_, hlast⟩
    simp only [transcript, hreply, hreplies]

/-! ## Calls by number -/

section Numbered

variable {σ κ ρ : Type} {call : σ → κ → ρ × σ} {s : σ} {cs : List κ} {k : Nat} {c : κ}

/-- The reply to a call is given by the state that the calls before it leave. -/
theorem getElem?_transcript (h : cs[k]? = some c) :
    (transcript call s cs).1[k]? = some (call (transcript call s (cs.take k)).2 c).1 := by
  induction cs generalizing s k with
  | nil => simp at h
  | cons d cs ih =>
    cases k with
    | zero =>
      obtain rfl : d = c := by simpa using h
      rfl
    | succ k => exact ih (s := (call s d).2) (by simpa using h)

/-- The state after a call is what the call makes of the state before it. -/
theorem transcript_take_succ (h : cs[k]? = some c) :
    (transcript call s (cs.take (k + 1))).2 = (call (transcript call s (cs.take k)).2 c).2 := by
  rw [List.take_add_one, h, transcript_append]
  rfl

/-- The first replies are those to the first calls. -/
theorem take_transcript (call : σ → κ → ρ × σ) (s : σ) (cs : List κ) (k : Nat) :
    (transcript call s cs).1.take k = (transcript call s (cs.take k)).1 := by
  induction cs generalizing s k with
  | nil => simp [transcript]
  | cons c cs ih =>
    cases k with
    | zero => rfl
    | succ k => simp [transcript, ih]

/-- **A call that changes nothing can be left out**: the other replies and the last state are as
they were. -/
theorem transcript_eraseIdx (h : cs[k]? = some c)
    (hsame : (call (transcript call s (cs.take k)).2 c).2 =
      (transcript call s (cs.take k)).2) :
    transcript call s (cs.eraseIdx k) =
      ((transcript call s cs).1.eraseIdx k, (transcript call s cs).2) := by
  induction cs generalizing s k with
  | nil => simp at h
  | cons d cs ih =>
    cases k with
    | zero =>
      obtain rfl : d = c := by simpa using h
      have hstate : (call s d).2 = s := hsame
      simp [transcript, hstate]
    | succ k =>
      have hrest := ih (s := (call s d).2) (by simpa using h) hsame
      simp [transcript, hrest]

end Numbered

end MinCut
