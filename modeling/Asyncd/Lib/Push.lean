import Mathlib.Data.List.Infix
import Mathlib.Tactic.TypeStar

/-!
# Consumers fed in segments

A consumer is called again and again on a state and a buffer; it may take elements from the front of
the buffer and leaves the rest.  `feed` appends a segment to the buffer and calls the consumer once.
`CutAt A s p x` says that a cut between `p` and `x` makes no difference, and
`segmentIndependent_iff` reduces independence of all ways of cutting to single cuts.  A consumer that
`Stops` runs until a condition on its state holds and then leaves its buffer alone; consumers are put
in sequence with `seq`, and `Stops.cutsAlong_seq` reduces the cuts of a sequence to those of its second
part.
-/

namespace Push

variable {σ α : Type*}

/-- State and buffer to new state and unread rest. -/
abbrev Consumer (σ α : Type*) := σ → List α → σ × List α

/-- Append a segment to the buffer, then call the consumer once. -/
def feed (A : Consumer σ α) (st : σ × List α) (seg : List α) : σ × List α :=
  A st.1 (st.2 ++ seg)

/-- Feed the segments one after the other. -/
def feedAll (A : Consumer σ α) (st : σ × List α) (segs : List (List α)) : σ × List α :=
  segs.foldl (feed A) st

/-- Reading `p` and then `x` is reading `p ++ x` at once. -/
def CutAt (A : Consumer σ α) (s : σ) (p x : List α) : Prop :=
  feed A (A s p) x = A s (p ++ x)

/-- No single cut in a part of the stream makes a difference. -/
def CutsAlong (A : Consumer σ α) (s : σ) (stream : List α) : Prop :=
  ∀ p x, p ++ x <+: stream → CutAt A s p x

/-- At every point of the stream, all ways of cutting what has arrived agree. -/
def SegmentIndependent (A : Consumer σ α) (s : σ) (stream : List α) : Prop :=
  ∀ p, p <+: stream → ∀ cs ds : List (List α), cs.flatten = p → ds.flatten = p →
    feedAll A (s, []) cs = feedAll A (s, []) ds

@[simp] theorem feedAll_nil (A : Consumer σ α) (st : σ × List α) : feedAll A st [] = st := rfl

@[simp] theorem feedAll_cons (A : Consumer σ α) (st : σ × List α) (c : List α)
    (cs : List (List α)) : feedAll A st (c :: cs) = feedAll A (feed A st c) cs := rfl

theorem feedAll_concat (A : Consumer σ α) (st : σ × List α) (cs : List (List α)) (c : List α) :
    feedAll A st (cs ++ [c]) = feed A (feedAll A st cs) c := by
  simp [feedAll]

/-- Where no cut makes a difference, any segmentation is one call on what has arrived. -/
theorem CutsAlong.feedAll_eq {A : Consumer σ α} {s : σ} {stream : List α}
    (h : CutsAlong A s stream) (h0 : A s [] = (s, [])) (cs : List (List α))
    (hcs : cs.flatten <+: stream) : feedAll A (s, []) cs = A s cs.flatten := by
  induction cs using List.reverseRecOn with
  | nil => simp [h0]
  | append_singleton cs c ih =>
    have hcs' : cs.flatten ++ c <+: stream := by simpa using hcs
    rw [feedAll_concat, ih ((List.prefix_append _ _).trans hcs'), h _ _ hcs']
    simp

theorem segmentIndependent_iff {A : Consumer σ α} {s : σ} (h0 : A s [] = (s, []))
    (stream : List α) : SegmentIndependent A s stream ↔ CutsAlong A s stream := by
  constructor
  · intro h p x hpx
    have := h (p ++ x) hpx [p, x] [p ++ x] (by simp) (by simp)
    simpa [feed, CutAt] using this
  · rintro h p hp cs ds rfl hds
    rw [h.feedAll_eq h0 cs hp, h.feedAll_eq h0 ds (hds ▸ hp), hds]

/-- A change of the state that the consumer does not see. -/
def Commutes (A : Consumer σ α) (f : σ → σ) : Prop :=
  ∀ s b, A (f s) b = (f (A s b).1, (A s b).2)

/-! ## Consumers in sequence -/

/-- Run `A`, then `B` on what `A` left. -/
def seq (A B : Consumer σ α) : Consumer σ α := fun s b => B (A s b).1 (A s b).2

theorem Commutes.seq {A B : Consumer σ α} {f : σ → σ} (hA : Commutes A f) (hB : Commutes B f) :
    Commutes (Push.seq A B) f := by
  intro s b
  rw [Push.seq, hA s b]
  exact hB _ _

/-- `A` reads until its state satisfies `Done`; after that it leaves its buffer alone, and what it has
read is a fixed part of the input, whatever follows. -/
structure Stops (A : Consumer σ α) (Done : σ → Prop) : Prop where
  idle : ∀ s b, Done s → A s b = (s, b)
  cut : ∀ s p x, CutAt A s p x
  head : ∀ s b, Done (A s b).1 → ∃ h, b = h ++ (A s b).2 ∧ ∀ r, A s (h ++ r) = ((A s b).1, r)

/-- `B` takes over where `Done` holds, and only there. -/
structure Follows (B : Consumer σ α) (Done : σ → Prop) : Prop where
  wait : ∀ s b, ¬ Done s → B s b = (s, b)
  keep : ∀ s b, Done s → Done (B s b).1

namespace Stops

variable {A B : Consumer σ α} {Done Done' : σ → Prop}

/-- Once `A` is done, further input is only put behind what it left. -/
theorem append (hA : Stops A Done) {s : σ} {p : List α} (hd : Done (A s p).1) (x : List α) :
    A s (p ++ x) = ((A s p).1, (A s p).2 ++ x) := by
  rw [← hA.cut s p x]
  exact hA.idle _ _ hd

/-- A cut of `seq A B` matters only after `A` is done, and then as a cut of `B`. -/
theorem seq_cutAt_iff (hA : Stops A Done) (hB : Follows B Done) (s : σ) (p x : List α) :
    CutAt (seq A B) s p x ↔ (Done (A s p).1 → CutAt B (A s p).1 (A s p).2 x) := by
  by_cases hd : Done (A s p).1
  · simp only [CutAt, feed, seq, hA.append hd x, hd, true_implies]
    rw [hA.idle _ _ (hB.keep _ _ hd)]
  · simp only [CutAt, feed, seq, hd, false_implies, iff_true]
    rw [hB.wait _ _ hd]
    have := hA.cut s p x
    simp only [CutAt, feed] at this
    rw [this]

theorem seq_cut (hA : Stops A Done) (hB : Follows B Done) {s : σ} {p x : List α}
    (h : ∀ s p x, CutAt B s p x) : CutAt (seq A B) s p x :=
  (hA.seq_cutAt_iff hB s p x).2 fun _ => h _ _ _

theorem seq (hA : Stops A Done) (hB : Follows B Done) (hB' : Stops B Done')
    (hle : ∀ s, Done' s → Done s) : Stops (Push.seq A B) Done' where
  idle s b hd := by
    simp only [Push.seq, hA.idle s b (hle s hd), hB'.idle s b hd]
  cut s p x := hA.seq_cut hB hB'.cut
  head s b hd := by
    simp only [Push.seq] at hd ⊢
    have hA1 : Done (A s b).1 := by
      by_contra hn
      rw [hB.wait _ _ hn] at hd
      exact hn (hle _ hd)
    obtain ⟨h₁, e₁, k₁⟩ := hA.head s b hA1
    obtain ⟨h₂, e₂, k₂⟩ := hB'.head _ _ hd
    refine ⟨h₁ ++ h₂, ?_, fun r => ?_⟩
    · rw [List.append_assoc, ← e₂, ← e₁]
    · rw [List.append_assoc, k₁]
      exact k₂ r

/-- The cuts of a sequence are the cuts of its second part over what the first part leaves. -/
theorem cutsAlong_seq (hA : Stops A Done) (hB : Follows B Done) (s : σ) (stream : List α) :
    CutsAlong (Push.seq A B) s stream ↔
      (Done (A s stream).1 → CutsAlong B (A s stream).1 (A s stream).2) := by
  constructor
  · intro h hd p x hpx
    obtain ⟨hd', e, k⟩ := hA.head s stream hd
    have hp : hd' ++ p ++ x <+: stream := by
      rw [e, List.append_assoc]
      exact (List.prefix_append_right_inj hd').2 hpx
    have := (hA.seq_cutAt_iff hB s _ _).1 (h _ _ hp)
    rw [k] at this
    exact this hd
  · intro h p x hpx
    rw [hA.seq_cutAt_iff hB]
    intro hd
    obtain ⟨y, rfl⟩ := hpx
    rw [List.append_assoc, hA.append hd] at h
    exact h hd _ _ ⟨y, by simp⟩

end Stops

end Push
