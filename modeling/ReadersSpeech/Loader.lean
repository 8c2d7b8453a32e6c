/-! Reading through an interface: a reader hands over the next bytes and says how many it was, and
tells whether it has run into the end, and a client reads, decides by what it got, and reads on. Two
readers that stay in step are the same to every client that does not look at the counts.
-/

set_option autoImplicit false

namespace ReadersSpeech.Loader

abbrev Bytes := List UInt8

variable {σ τ β : Type}

/-- What a read puts at the beginning of the buffer, and the count it returns. -/
structure Got where
  bytes : Bytes
  count : Nat
  deriving DecidableEq, Repr

structure Reader (σ : Type) where
  read : Nat → σ → Got × σ
  eof : σ → Bool

/-- What is done next depends on all that was read so far. A read is into a buffer, and goes on with
the buffer as it is then. -/
inductive Client (β : Type) where
  | done (b : β)
  | read (buffer : Bytes) (next : Bytes → Nat → Client β)
  | eof (next : Bool → Client β)

/-- What is not read over stays in the buffer. -/
def Got.into (g : Got) (buffer : Bytes) : Bytes := g.bytes ++ buffer.drop g.bytes.length

def Client.run (r : Reader σ) : Client β → σ → β × σ
  | .done b, s => (b, s)
  | .read buffer next, s =>
    let got := (r.read buffer.length s).1
    (next (got.into buffer) got.count).run r (r.read buffer.length s).2
  | .eof next, s => (next (r.eof s)).run r s

/-- It goes on in the same way whatever count it is told. -/
def Client.Countless : Client β → Prop
  | .done _ => True
  | .read _ next => (∀ b m m', next b m = next b m') ∧ ∀ b m, (next b m).Countless
  | .eof next => ∀ e, (next e).Countless

/-- Where the readers are related, they hand over the same bytes and stay related. -/
structure InStep (r : Reader σ) (r' : Reader τ) (Rel : σ → τ → Prop) : Prop where
  read : ∀ n s t, Rel s t →
    (r.read n s).1.bytes = (r'.read n t).1.bytes ∧ Rel (r.read n s).2 (r'.read n t).2
  eof : ∀ s t, Rel s t → r.eof s = r'.eof t

theorem InStep.run {r : Reader σ} {r' : Reader τ} {Rel : σ → τ → Prop} (h : InStep r r' Rel)
    {c : Client β} (hc : c.Countless) {s : σ} {t : τ} (hst : Rel s t) :
    (c.run r s).1 = (c.run r' t).1 ∧ Rel (c.run r s).2 (c.run r' t).2 := by
  induction c generalizing s t with
  | done b => exact ⟨rfl, hst⟩
  | read buffer next ih =>
    obtain ⟨hsame, hnext⟩ := hc
    obtain ⟨hbytes, hrel⟩ := h.read buffer.length s t hst
    have hinto : (r.read buffer.length s).1.into buffer =
        (r'.read buffer.length t).1.into buffer := by
      rw [Got.into, Got.into, hbytes]
    simp only [Client.run, hinto]
    rw [hsame _ (r.read buffer.length s).1.count (r'.read buffer.length t).1.count]
    exact ih _ _ (hnext _ _) hrel
  | eof next ih =>
    simp only [Client.run, h.eof s t hst]
    exact ih _ (hc _) hst

end ReadersSpeech.Loader
