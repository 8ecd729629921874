import PackedBits.Proofs.BitStream.Closing
import PackedBits.Proofs.WordStream.Room

/-!
# Packing as long as there is room

A packer asks its sink to take words, and in the end to flush.  Over a sink with room for all of
these words no write fails (`Packs.run_room`), and the closing comes to a flush of a sink that has
the layout of the bits (`Packs.close_room`).  All that is known of the sink is a relation to the
words that were written to it.
-/

namespace PackedBits.Packer

open Word Layout

variable {w : Width} {κ : Type} {room : Nat} {R : κ → List (Word w) → Prop} {marked : Bool}
  {b : List Bool} {n : Nat} {p : Packer w κ}

/-- Whether a relation holds of the words that some calls have written. -/
def Wrote (R : κ → List (Word w) → Prop) (s : κ) (calls : List (SinkCall w)) : Prop :=
  R s (calls.filterMap SinkCall.word?)

theorem Packs.wrote (h : Packs (Wrote R) marked b n p) : R p.sink (groups b) := by
  have hsink := h.sink
  rwa [Wrote, SinkCall.filterMap_word?_map_write] at hsink

theorem wrote_concat {s : κ} {ws : List (Word w)} {x : Word w} (h : R s (ws ++ [x])) :
    Wrote R s (ws.map .write ++ [.write x]) := by
  rw [Wrote, List.filterMap_append, SinkCall.filterMap_word?_map_write]
  exact h

variable [WordSink κ w]

/-- One call. -/
theorem Packs.make_room (hR : RoomView room R) (h : Packs (Wrote R) marked b n p) {c : WriteCall w}
    (hc : c.InRange) (hroom : (groups (c.extend b) : List (Word w)).length ≤ room) :
    ∃ p', c.make p = (.ok c.value?, p') ∧ Packs (Wrote R) marked (c.extend b) (n + c.width) p' := by
  rcases h.make_asksOnce hc with ⟨-, hmade⟩ | ⟨x, hgroups, hok, -⟩
  · exact hmade
  · rw [hgroups, List.length_append, List.length_singleton] at hroom
    obtain ⟨s', hwrite, hs'⟩ := hR.write x h.wrote hroom
    exact hok s' hwrite (wrote_concat hs')

/-- Any calls. -/
theorem Packs.run_room (hR : RoomView room R) (h : Packs (Wrote R) marked b n p)
    {calls : List (WriteCall w)} (hcalls : ∀ c ∈ calls, c.InRange)
    (hroom : (groups (calls.foldl WriteCall.extend b) : List (Word w)).length ≤ room) :
    ∃ m p', WriteCall.run p calls = (calls.map (fun c => .ok c.value?), p') ∧
      Packs (Wrote R) marked (calls.foldl WriteCall.extend b) m p' := by
  induction calls generalizing b n p with
  | nil => exact ⟨n, p, rfl, h⟩
  | cons c calls ih =>
    -- there is room for the words of the first call, which are the front of those of all calls
    obtain ⟨more, hmore⟩ := WriteCall.exists_foldl_extend_eq (c.extend b) calls
    obtain ⟨ws, hws⟩ := exists_groups_append (w := w) (c.extend b) more
    have hfirst : (groups (c.extend b) : List (Word w)).length ≤ room := by
      rw [List.foldl_cons, hmore, hws, List.length_append] at hroom
      omega
    obtain ⟨p₁, hmake, hp₁⟩ := h.make_room hR (hcalls c List.mem_cons_self) hfirst
    obtain ⟨m, p', hrun, hp'⟩ := ih hp₁ (fun c' hc' => hcalls c' (List.mem_cons_of_mem c hc')) hroom
    exact ⟨m, p', by rw [WriteCall.run_cons hmake, hrun, List.map_cons], hp'⟩

/-- The closing. -/
theorem Packs.close_room (hR : RoomView room R) (h : Packs (Wrote R) marked b n p)
    (hroom : (layout marked b : List (Word w)).length ≤ room) :
    ∃ s, R s (layout marked b) ∧ (p.close.1, p.close.2.sink) = WordSink.flush s := by
  have hclose := close_eq_attempt h.closed fun _ => Nat.le_of_lt h.pos_lt
  rw [h.closingWords_eq] at hclose
  obtain ⟨s, hattempt, hs⟩ := hR.attempt h.wrote _ hroom
  rw [SinkCall.attempt_append_ok _ hattempt, SinkCall.attempt_singleton] at hclose
  exact ⟨s, hs, hclose⟩

end PackedBits.Packer
