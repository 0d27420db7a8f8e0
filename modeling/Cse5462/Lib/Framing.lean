import Cse5462.Lib.Machine

/-!
# Messages in a Stream of Bytes

A stream keeps bytes and not messages. If all messages are encoded in the same
number of bytes, and a reader takes that number at a time, it reads message
after message nevertheless, however the writes and the reads interleave.

The reader need not get back what was written: `view` is what it makes of a
message, and a decoder that inverts the encoder is the case of the identity.

## Main definitions

* `Stream`: The bytes in the stream, what has been written and what was read.
* `StreamEvent`: A write or a read.
* `Stream.step`: The stream after a write or a read.

## Theorems

* `framed_run`: What has been read are the messages written first.
-/

namespace Cse5462

/-- A stream of bytes, the messages that have been written to it and what has
    been read. -/
structure Stream (α β γ : Type*) where
  bytes : List γ
  written : List α
  read : List β

/-- A message is written, or a reader takes the next bytes. -/
inductive StreamEvent (α : Type*) where
  | write (a : α)
  | read

namespace Stream

variable {α β γ : Type*} (n : Nat) (encode : α → List γ) (decode : List γ → β)

def init : Stream α β γ := { bytes := [], written := [], read := [] }

/-- The stream after an event. A reader waits as long as there is nothing. -/
def step (s : Stream α β γ) : StreamEvent α → Option (Stream α β γ)
  | .write a => some { s with bytes := s.bytes ++ encode a, written := s.written ++ [a] }
  | .read =>
      match s.bytes with
      | [] => none
      | c :: bs => some { s with
          bytes := (c :: bs).drop n
          read := s.read ++ [decode ((c :: bs).take n)] }

/-- What has been read are the first messages, and the bytes are the others. -/
def Framed (view : α → β) (s : Stream α β γ) : Prop :=
  ∃ front back, s.written = front ++ back ∧ s.read = front.map view ∧
    s.bytes = back.flatMap encode

/-- A write of a message, or a read. -/
def Valid (E : α → Prop) : StreamEvent α → Prop
  | .write a => E a
  | .read => True

variable {n encode decode} {view : α → β} {E : α → Prop} {s s' : Stream α β γ}

/-- One event keeps the frames, if the bytes of every message in the stream are
    as many as a read takes. -/
theorem framed_step (hlen : ∀ a, E a → (encode a).length = n)
    (hview : ∀ a, E a → decode (encode a) = view a) (e : StreamEvent α)
    (h : s.Framed encode view ∧ ∀ a ∈ s.written, E a) (he : Valid E e)
    (hstep : s.step n encode decode e = some s') :
    s'.Framed encode view ∧ ∀ a ∈ s'.written, E a := by
  rcases h with ⟨⟨front, back, hwritten, hread, hbytes⟩, hall⟩
  cases e with
  | write a =>
      cases hstep
      refine ⟨⟨front, back ++ [a], ?_, hread, ?_⟩, fun x hx => ?_⟩
      · dsimp only
        rw [hwritten, List.append_assoc]
      · dsimp only
        rw [hbytes, List.flatMap_append, List.flatMap_cons, List.flatMap_nil, List.append_nil]
      · rcases List.mem_append.mp hx with hx | hx
        · exact hall x hx
        · exact List.mem_singleton.mp hx ▸ he
  | read =>
      unfold step at hstep
      dsimp only at hstep
      split at hstep
      · cases hstep
      · rename_i c bs hcons
        cases hstep
        rw [← hcons]
        cases back with
        | nil =>
            -- There would be no bytes.
            rw [hbytes] at hcons
            cases hcons
        | cons a back =>
            have ha : E a := by
              refine hall a ?_
              rw [hwritten]
              exact List.mem_append_right _ List.mem_cons_self
            have hsize := hlen a ha
            rw [List.flatMap_cons] at hbytes
            refine ⟨⟨front ++ [a], back, ?_, ?_, ?_⟩, hall⟩
            · dsimp only
              rw [hwritten, List.append_assoc]
              rfl
            · dsimp only
              rw [hread, hbytes, List.take_left' hsize, hview a ha, List.map_append]
              rfl
            · dsimp only
              rw [hbytes, List.drop_left' hsize]

/-- However writes and reads interleave, what has been read is the view of the
    messages written first, and the bytes in the stream are those of the
    others. -/
theorem framed_run (hlen : ∀ a, E a → (encode a).length = n)
    (hview : ∀ a, E a → decode (encode a) = view a) (es : List (StreamEvent α))
    (hes : ∀ e ∈ es, Valid E e) (s : Stream α β γ)
    (hrun : Machine.run (step n encode decode) init es = some s) : s.Framed encode view := by
  refine (Machine.run_induction (C := fun _ e => Valid E e)
    (P := fun s : Stream α β γ => s.Framed encode view ∧ ∀ a ∈ s.written, E a)
    (fun s e s' h he hs => framed_step hlen hview e h he hs) es init s ?_
    (Machine.meets_of_forall_mem es init hes) hrun).1
  exact ⟨⟨[], [], rfl, rfl, rfl⟩, fun a ha => absurd ha List.not_mem_nil⟩

end Stream

end Cse5462
