import WeightedTransducer.Codex.Storage
import WeightedTransducer.Proofs.Codex.Obtained
import WeightedTransducer.Proofs.Codex.Restore
import WeightedTransducer.Storage.FileTree

/-!
# Machines restored with a stored codex

Where the storage keeps what it is given (`LawfulStorage`), a codex that was saved is loaded again
with the weights that its own read back as (`Codex.load_of_bytes`).  Encoding with a fresh codex
saves what that codex has grown into (`Machine.encodeWith_fresh_eq_iff`).  Weights read back as
equal ones, so the labels mean the same in the stored codex as in the one that the machine was
encoded with, and decoding with it restores the machine (`Machine.decodeWith_encodeWith`).
-/

namespace WeightedTransducer

/-- A storage in which a file that was saved is found as it was written. -/
class LawfulStorage (σ : Type) [Storage σ] : Prop where
  /-- What was saved is loaded. -/
  load_save {storage saved : σ} {path : String} {contents : Bytes}
    (h : Storage.save storage path contents = (.ok (), saved)) :
    Storage.load saved path = .ok contents

instance : LawfulStorage FileTree where
  load_save := FileTree.load_save

variable {σ : Type} [Storage σ]

namespace Codex
variable {W : Type} [Weight W] {d : Delimiters}

/-- A stored codex is loaded with the flags that it had and the entries that its own read back
as. -/
theorem load_of_bytes [EquivBEq W] [LawfulTextual W] {same : W → W → Prop}
    (hd : d.validate = .ok ()) (hdigits : ∀ c ∈ d.characters, c.isDigit = false)
    (htype : Text.IsWord (Weight.typeName W).toList)
    (hsame : ∀ a b : W, same a b → (a == b) = true) {codex : Codex W} (hdistinct : codex.Distinct)
    (hlength : codex.entries.length < 2 ^ 64)
    (hweights : ∀ e ∈ codex.entries, ReadsBack d same e.weight) {storage : σ} {path : String}
    (hload : Storage.load storage path = .ok (codex.bytes d)) :
    ∃ entries, (load storage path d).value = .ok { flags := codex.flags, entries } ∧
      List.Forall₂ (Entry.Same same) entries codex.entries := by
  obtain ⟨entries, hread, hall⟩ := read_bytes hd hdigits htype hsame hdistinct hlength hweights
  refine ⟨entries, ?_, hall⟩
  unfold load
  rw [hload]
  exact hread

/-- Where the weights read back exactly, so does the codex. -/
theorem load_of_bytes_eq [EquivBEq W] [LawfulTextual W] (hd : d.validate = .ok ())
    (hdigits : ∀ c ∈ d.characters, c.isDigit = false)
    (htype : Text.IsWord (Weight.typeName W).toList) {codex : Codex W} (hdistinct : codex.Distinct)
    (hlength : codex.entries.length < 2 ^ 64)
    (hweights : ∀ e ∈ codex.entries, ReadsBack d Eq e.weight) {storage : σ} {path : String}
    (hload : Storage.load storage path = .ok (codex.bytes d)) :
    (load storage path d).value = .ok codex := by
  have hsame (a b : W) (h : a = b) : (a == b) = true := h ▸ BEq.rfl
  obtain ⟨entries, hloaded, hall⟩ :=
    load_of_bytes hd hdigits htype hsame hdistinct hlength hweights hload
  have hentries : entries = codex.entries := by
    refine List.forall₂_eq_eq_eq ▸ hall.imp ?_
    rintro ⟨input, output, weight⟩ ⟨input', output', weight'⟩ ⟨hinput, houtput, hweight⟩
    dsimp only at hinput houtput hweight
    rw [hinput, houtput, hweight]
  rw [hloaded]
  exact congrArg Except.ok (ext rfl hentries)

end Codex

namespace Machine
variable {W : Type} [Weight W] {d : Delimiters}

/-- Encoding with a fresh codex changes the machine first and saves the codex then. -/
theorem value_encodeWith_fresh (m : Machine W) (storage : σ) (flags : Flags) (path : String)
    (d : Delimiters) :
    (m.encodeWith storage flags false path d).value =
      ⟨((m.encode (.empty flags)).value.2.save storage path d).1.map
          fun _ => (m.encode (.empty flags)).value.2,
        (m.encode (.empty flags)).value.1,
        ((m.encode (.empty flags)).value.2.save storage path d).2⟩ := by
  unfold encodeWith codexFor
  rw [if_neg Bool.false_ne_true, Traced.value_bind, Traced.value_pure]
  rfl

/-- Encoding with a fresh codex is encoding and then saving what the codex has grown into. -/
theorem encodeWith_fresh_eq_iff {m encoded : Machine W} {storage saved : σ} {flags : Flags}
    {path : String} {grown : Codex W} :
    (m.encodeWith storage flags false path d).value = ⟨.ok grown, encoded, saved⟩ ↔
      (m.encode (.empty flags)).value = (encoded, grown) ∧
        Storage.save storage path (grown.bytes d) = (.ok (), saved) := by
  rw [value_encodeWith_fresh]
  generalize (m.encode (.empty flags)).value = pair
  obtain ⟨machine, codex⟩ := pair
  unfold Codex.save
  generalize hput : Storage.save storage path (codex.bytes d) = put
  obtain ⟨outcome, after⟩ := put
  constructor
  · intro h
    obtain ⟨hcodex, rfl, rfl⟩ := EncodeResult.mk.inj h
    cases outcome with
    | error failure => cases hcodex
    | ok _ =>
      cases hcodex
      exact ⟨rfl, hput⟩
  · rintro ⟨hpair, hsaved⟩
    cases hpair
    rw [hput] at hsaved
    cases hsaved
    rfl

/-- **A machine that was encoded with a fresh codex is restored with the codex from the storage**,
for every kind of weights built from costs. -/
theorem decodeWith_encodeWith [Elementary] [LawfulStorage σ] {k : WeightKind} (hk : k.OfCosts)
    (hd : d.validate = .ok ()) (hcosts : d.AvoidsCosts)
    (hnests : d.parentheses.isSome ∨ k.NestsLast) {m : Machine k.Carrier} (hm : m.WellFormed)
    (storage : σ) (flags : Flags) (path : String) {encoded : Machine k.Carrier} {saved : σ}
    {grown : Codex k.Carrier}
    (h : (m.encodeWith storage flags false path d).value = ⟨.ok grown, encoded, saved⟩)
    (hfits : grown.Fits) :
    ∃ restored, (encoded.decodeWith saved path d).value = .ok restored ∧
      (restored == m) = true := by
  obtain ⟨hpair, hsave⟩ := encodeWith_fresh_eq_iff.mp h
  have hencoded : (m.encode (.empty flags)).value.1 = encoded := congrArg Prod.fst hpair
  have hgrown : (m.encode (.empty flags)).value.2 = grown := congrArg Prod.snd hpair
  have hempty : (.empty flags : Codex k.Carrier).Distinct := List.Pairwise.nil
  have hdistinct : grown.Distinct := hgrown ▸ hempty.machine_encode m
  have hlength : grown.entries.length < 2 ^ 64 := Nat.lt_trans hfits (by decide)
  have hweights : ∀ e ∈ grown.entries, ReadsBack d (fun a b => (a == b) = true) e.weight :=
    fun e _ => WeightKind.readsBack hd hcosts hk hnests e.weight
  obtain ⟨entries, hload, hall⟩ := Codex.load_of_bytes hd hcosts.isDigit_eq_false
    (WeightKind.isWord_typeName hk) (fun _ _ h => h) hdistinct hlength hweights
    (LawfulStorage.load_save hsave)
  have hagrees : ({ flags := grown.flags, entries } : Codex k.Carrier).Agrees grown :=
    Codex.agrees_of_forall₂ rfl (hall.imp fun _ _ h => Codex.beq_of_same (fun _ _ h => h) h)
  have hkeeps : (m.encode (.empty flags)).value.2.Keeps { flags := grown.flags, entries } :=
    hgrown ▸ hagrees.keeps
  unfold decodeWith
  rw [Traced.value_bind, hload, ← hencoded]
  exact decode_encode_of_keeps (WeightKind.zero_ne_one hk) hm hkeeps (hgrown ▸ hfits)

/-- A machine of nested pairs: its start state is final, and weights on its arcs are `-0`, infinity
and no numbers. -/
theorem decodeWith_encodeWith_of_pairs :
    let d : Delimiters := ⟨';', some ('(', ')')⟩
    let k : WeightKind := .product (.product .tropical .log) .tropical
    let w (a b c : Single) : k.Carrier :=
      (⟨⟨⟨a⟩, ⟨b⟩⟩, ⟨c⟩⟩ : Product (Product Tropical Log) Tropical)
    let m : Machine k.Carrier :=
      { states := [{ final := w (.zero true) (.quiet true) (.zero false)
                     arcs := [⟨0, 3, w (.quiet true) (.infinity false) (.zero true), 0⟩] }]
        start := some 0 }
    let pair := (m.encode (.empty ⟨true, true⟩)).value
    let saved := ({} : FileTree).put ["codex", "home"] (.file (pair.2.bytes d))
    k.OfCosts ∧ d.validate = .ok () ∧ d.AvoidsCosts ∧ (d.parentheses.isSome ∨ k.NestsLast) ∧
      m.WellFormed ∧ (m.encodeWith ({} : FileTree) ⟨true, true⟩ false "codex" d).value =
        ⟨.ok pair.2, pair.1, saved⟩ ∧ pair.2.Fits ∧
      ∃ restored, (pair.1.decodeWith saved "codex" d).value = .ok restored ∧
        (restored == m) = true := by
  intro d k w m pair saved
  have hk : k.OfCosts := ⟨⟨trivial, trivial⟩, trivial⟩
  have hcosts : d.AvoidsCosts := by
    have hclear : ∀ c ∈ Cost.characters, c ∉ d.characters := by decide
    intro value c hc
    exact hclear c (Cost.mem_characters_of_mem_write hc)
  have hm : m.WellFormed := ⟨by decide, by decide⟩
  have htarget : ({} : FileTree).target "codex" = .ok ["codex", "home"] := by decide
  have hsave : Storage.save ({} : FileTree) "codex" (pair.2.bytes d) = (.ok (), saved) := by
    simp only [Storage.save, htarget, saved]
  have hencode : (m.encodeWith ({} : FileTree) ⟨true, true⟩ false "codex" d).value =
      ⟨.ok pair.2, pair.1, saved⟩ := encodeWith_fresh_eq_iff.mpr ⟨(Prod.eta pair).symm, hsave⟩
  have hfits : pair.2.Fits := by
    unfold Codex.Fits
    decide +kernel
  exact ⟨hk, rfl, hcosts, Or.inl rfl, hm, hencode, hfits,
    decodeWith_encodeWith hk rfl hcosts (Or.inl rfl) hm {} ⟨true, true⟩ "codex" hencode hfits⟩

end Machine
end WeightedTransducer
