import NaturalDeduction.Automation.Search
import NaturalDeduction.Proofs.Pointwise
import NaturalDeduction.Proofs.Rewriting

/-!
# Construction only adds

Whatever is done inside a deduction, short of closing it or going back behind the start, only adds
to it: its frame keeps what it holds as an initial part (`Frame.Grows`), and deductions may have
been opened inside. The frames around it stay as they are, with one exception. When an abbreviation
is written out, its definition may be supposed in the frame that has the abbreviation, also if that
frame is not current (`Frame.Defines`). So a frame around the current one may have definitions of
its own abbreviations added in front (`Frame.GrowsByDefinitions`).

`ProofState.Grows` says this of two states, and `Adds` of a computation, however it ends; without
`defining`, the exception is not made. Neither asks that variables are below the counter.

What a definition is supposed for is found in one state and used in a later one; since the states
grow, the abbreviation is still there (`ProofState.MayDefine.grows`).

Main definitions:

* `Frame.Grows`, `Frame.Extends`: a frame that was added to, also so that no name changed its
  meaning.
* `Frame.GrowsByDefinitions`: what may happen to the frames around the current one.
* `ProofState.Within`: the deduction that was current is still open. What is said of it and of the
  frames around it are parameters, so one composition lemma serves all such relations.
* `ProofState.Grows`: the case in which they grow.
-/

namespace NaturalDeduction

variable {defining : Bool}

/-! ### Frames that grow -/

/-- Whether a frame holds what another one holds, and perhaps more. Entries are newest first, all
else is oldest first. -/
structure Frame.Grows (f g : Frame) : Prop where
  name : g.deduction.name = f.deduction.name
  entries : f.deduction.entries <:+ g.deduction.entries
  parameters : f.deduction.parameters <+: g.deduction.parameters
  rules : f.rules <+: g.rules
  abbreviations : f.abbreviations <+: g.abbreviations

/-- Whether a frame has grown in such a way that each name stands for what it stood for. -/
structure Frame.Extends (f g : Frame) : Prop extends f.Grows g where
  get? : ∀ name e, f.deduction.get? name = some e → g.deduction.get? name = some e

/-- Whether an entry supposes an instance of the definition of one of the frame's abbreviations. -/
def Frame.Defines (f : Frame) (e : Entry) : Prop :=
  e.justification = .supposition ∧ ∃ a ∈ f.abbreviations, a.Defines e.statement

/-- A frame with more entries in front. -/
def Frame.addAll (f : Frame) (es : List Entry) : Frame :=
  { f with deduction := { f.deduction with entries := es ++ f.deduction.entries } }

/-- Whether a frame is another one with definitions of its abbreviations in front. -/
def Frame.GrowsByDefinitions (f g : Frame) : Prop :=
  ∃ es : List Entry, (∀ e ∈ es, f.Defines e) ∧ g = f.addAll es

namespace Frame

variable {f g h : Frame}

/-- A frame that is left alone has grown by nothing. -/
theorem Grows.refl (f : Frame) : f.Grows f :=
  ⟨rfl, List.suffix_refl _, List.prefix_refl _, List.prefix_refl _, List.prefix_refl _⟩

/-- Growth of states composes. The current frame of the state in between may be further in than the
first one, so this is not a fact about lists alone. -/
theorem Grows.trans (hfg : f.Grows g) (hgh : g.Grows h) : f.Grows h where
  name := hgh.name.trans hfg.name
  entries := hfg.entries.trans hgh.entries
  parameters := hfg.parameters.trans hgh.parameters
  rules := hfg.rules.trans hgh.rules
  abbreviations := hfg.abbreviations.trans hgh.abbreviations

theorem Grows.add (f : Frame) (e : Entry) : f.Grows (f.add e) :=
  { Grows.refl f with entries := List.suffix_cons e _ }

theorem Grows.addAll (f : Frame) (es : List Entry) : f.Grows (f.addAll es) :=
  { Grows.refl f with entries := List.suffix_append es _ }

/-- A frame with the same entries gives every name the same meaning. -/
theorem Extends.of_entries_eq (h : f.Grows g)
    (hentries : g.deduction.entries = f.deduction.entries) :
    f.Extends g :=
  { h with get? := fun name e he ↦ by rwa [Deduction.get?, Deduction.find?, hentries] }

theorem Extends.refl (f : Frame) : f.Extends f := .of_entries_eq (.refl f) rfl

/-- Extension is growth that hides no name, and composes as well. -/
theorem Extends.trans (hfg : f.Extends g) (hgh : g.Extends h) : f.Extends h :=
  { hfg.toGrows.trans hgh.toGrows with
    get? := fun name e he ↦ hgh.get? name e (hfg.get? name e he) }

/-- An entry with a name of its own changes nothing about other names. -/
theorem Extends.add {e : Entry} (he : f.deduction.get? e.name = none) : f.Extends (f.add e) :=
  { Grows.add f e with
    get? := fun name statement hname ↦ by
      have hne : (e.name == name) = false := by
        refine beq_eq_false_iff_ne.2 fun heq ↦ ?_
        rw [heq, hname] at he
        cases he
      show Option.map _ (List.find? _ (e :: f.deduction.entries)) = some statement
      rw [List.find?_cons_of_neg (by simpa using hne)]
      exact hname }

theorem addAll_nil (f : Frame) : f.addAll [] = f := by
  rcases f with ⟨⟨name, parameters, entries⟩, rules, abbreviations⟩
  rfl

/-- No definition was supposed. -/
theorem GrowsByDefinitions.refl (f : Frame) : f.GrowsByDefinitions f :=
  ⟨[], fun _ he ↦ absurd he List.not_mem_nil, f.addAll_nil.symm⟩

/-- Definitions in front of definitions. The abbreviations of the frame are the same throughout. -/
theorem GrowsByDefinitions.trans (hfg : f.GrowsByDefinitions g) (hgh : g.GrowsByDefinitions h) :
    f.GrowsByDefinitions h := by
  obtain ⟨es, hes, rfl⟩ := hfg
  obtain ⟨es', hes', rfl⟩ := hgh
  refine ⟨es' ++ es, fun e he ↦ ?_, by simp [Frame.addAll]⟩
  exact (List.mem_append.1 he).elim (hes' e) (hes e)

/-- One definition of an abbreviation of the frame. -/
theorem GrowsByDefinitions.add {e : Entry} (he : f.Defines e) : f.GrowsByDefinitions (f.add e) :=
  ⟨[e], fun _ h ↦ List.mem_singleton.1 h ▸ he, rfl⟩

/-- To have definitions added is to grow. -/
theorem GrowsByDefinitions.grows (hfg : f.GrowsByDefinitions g) : f.Grows g := by
  obtain ⟨es, -, rfl⟩ := hfg
  exact Grows.addAll f es

/-- A frame has not changed if it has as many entries as before. -/
theorem GrowsByDefinitions.eq_of_length_eq (hfg : f.GrowsByDefinitions g)
    (hlength : g.deduction.entries.length = f.deduction.entries.length) : g = f := by
  obtain ⟨es, -, rfl⟩ := hfg
  have hes : es = [] := by simpa [Frame.addAll] using hlength
  rw [hes, f.addAll_nil]

/-- Whether a frame stays as it is. With `defining`, definitions of its abbreviations may be added.
-/
def Stays : Bool → Frame → Frame → Prop
  | true, f, g => f.GrowsByDefinitions g
  | false, f, g => g = f

/-- The frames around the current one grow at most by definitions. -/
theorem Stays.grows (h : Stays defining f g) : f.Grows g := by
  cases defining with
  | true => exact GrowsByDefinitions.grows h
  | false => exact Eq.subst h.symm (.refl f)

theorem Stays.refl (f : Frame) : Stays defining f f := by
  cases defining with
  | true => exact GrowsByDefinitions.refl f
  | false => rfl

/-- With or without the exception, this composes. -/
theorem Stays.trans (hfg : Stays defining f g) (hgh : Stays defining g h) : Stays defining f h := by
  cases defining with
  | true => exact GrowsByDefinitions.trans hfg hgh
  | false => exact Eq.trans hgh hfg

end Frame

/-! ### States that grow -/

namespace ProofState

variable {s t u : ProofState}

/-- Whether the current deduction of a state is still open in another one, where its frame has
become what is in one relation to it, and the frames around it what is in another one to them. -/
def Within (B O : Frame → Frame → Prop) (s t : ProofState) : Prop :=
  ∃ inner base outer, t.frames = inner ++ base :: outer ∧ B s.current base ∧
    List.Forall₂ O s.enclosing outer

/-- Whether a state was reached inside the current deduction of another one, which was neither
closed nor cut back. -/
def Grows (s : ProofState) (defining : Bool) (t : ProofState) : Prop :=
  ∃ inner base outer, t.frames = inner ++ base :: outer ∧ s.current.Grows base ∧
    List.Forall₂ (Frame.Stays defining) s.enclosing outer

theorem Grows.within (h : s.Grows defining t) : s.Within Frame.Grows (Frame.Stays defining) t := h

/-- All frames around stay. -/
theorem forall₂_stays_refl (frames : List Frame) :
    List.Forall₂ (Frame.Stays defining) frames frames :=
  List.forall₂_same.2 fun f _ ↦ .refl f

/-- Counters and limits have no bearing on growth. -/
theorem Grows.of_frames (h : t.frames = s.frames) : s.Grows defining t :=
  ⟨[], s.current, s.enclosing, h, .refl _, forall₂_stays_refl _⟩

theorem Grows.refl (s : ProofState) : s.Grows defining s := .of_frames rfl

/-- A change of the current frame. -/
theorem Grows.of_current {f : Frame} (h : s.current.Grows f) :
    s.Grows defining { s with current := f } :=
  ⟨[], f, s.enclosing, rfl, h, forall₂_stays_refl _⟩

/-- Staying composes frame by frame. -/
theorem forall₂_trans {frames frames' frames'' : List Frame}
    (h : List.Forall₂ (Frame.Stays defining) frames frames')
    (h' : List.Forall₂ (Frame.Stays defining) frames' frames'') :
    List.Forall₂ (Frame.Stays defining) frames frames'' :=
  forall₂_compose h h' fun _ _ _ ↦ .trans

/-- The relation around the current deduction may be another one in each of the two steps. -/
theorem Within.trans {B O O' O'' : Frame → Frame → Prop}
    (hst : s.Within B O t) (htu : t.Within B O' u) (hB : ∀ f g h, B f g → B g h → B f h)
    (hO : ∀ f g h, O f g → O' g h → O'' f h) (hOB : ∀ f g, O' f g → B f g) :
    s.Within B O'' u := by
  obtain ⟨inner, base, outer, ht, hbase, houter⟩ := hst
  obtain ⟨inner', base', outer', hu, hbase', houter'⟩ := htu
  cases inner with
  | nil =>
    obtain ⟨rfl, rfl⟩ := List.cons.inj ht
    exact ⟨inner', base', outer', hu, hB _ _ _ hbase hbase', forall₂_compose houter houter' hO⟩
  | cons c rest =>
    -- the frame of the deduction is now around the current one
    obtain ⟨rfl, henclosing⟩ := List.cons.inj ht
    rw [henclosing] at houter'
    obtain ⟨rest', base'', outer'', rfl, hbase'', houter''⟩ := exists_of_forall₂_append_cons houter'
    exact ⟨inner' ++ base' :: rest', base'', outer'', by simp [hu],
      hB _ _ _ hbase (hOB _ _ hbase''), forall₂_compose houter houter'' hO⟩

theorem Grows.trans (hst : s.Grows defining t) (htu : t.Grows defining u) : s.Grows defining u :=
  hst.within.trans htu.within (fun _ _ _ ↦ .trans) (fun _ _ _ ↦ .trans) fun _ _ ↦ Frame.Stays.grows

end ProofState

/-! ### Computations that only add -/

/-- Whether a computation only adds to the proof state, however it ends. -/
def Adds {σ ε α : Type} [Proving σ] (defining : Bool) (act : ExceptT ε (StateM σ) α) (x : σ) :
    Prop :=
  (Proving.state x).Grows defining (Proving.state (act.run.run x).2)

/-! ### Definitions -/

/-- Whether the frame with an index has an abbreviation that a definition is about. -/
def ProofState.MayDefine (s : ProofState) (index : Nat) (definition : Expression) : Prop :=
  ∃ inner f outer, s.frames = inner ++ f :: outer ∧ outer.length = index ∧
    ∀ name, f.Defines ⟨name, definition, .supposition⟩

/-- A definition of an abbreviation stays one when more abbreviations are registered. -/
theorem Frame.Defines.mono {f g : Frame} {e : Entry} (h : f.Defines e)
    (hsub : f.abbreviations ⊆ g.abbreviations) : g.Defines e := by
  obtain ⟨hjustification, a, ha, hexpand⟩ := h
  exact ⟨hjustification, a, hsub ha, hexpand⟩

/-- The frame is still there later on, with all its abbreviations. -/
theorem ProofState.MayDefine.grows {s t : ProofState} {index : Nat} {definition : Expression}
    (h : s.MayDefine index definition) (hst : s.Grows defining t) :
    t.MayDefine index definition := by
  obtain ⟨inner, f, outer, hs, rfl, hdefines⟩ := h
  obtain ⟨inner', base, outer', ht, hbase, houter⟩ := hst
  cases inner with
  | nil =>
    obtain ⟨rfl, rfl⟩ := List.cons.inj hs
    refine ⟨inner', base, outer', ht, houter.length_eq.symm, fun name ↦ ?_⟩
    exact (hdefines name).mono hbase.abbreviations.subset
  | cons c rest =>
    obtain ⟨rfl, henclosing⟩ := List.cons.inj hs
    rw [henclosing] at houter
    obtain ⟨rest', f', outer'', rfl, hf, houter⟩ := exists_of_forall₂_append_cons houter
    refine ⟨inner' ++ base :: rest', f', outer'', by simp [ht], houter.length_eq.symm,
      fun name ↦ ?_⟩
    exact (hdefines name).mono (Frame.Stays.grows hf).abbreviations.subset

/-- What writing out answers with is the abbreviation that was found, so its definition may be
supposed. -/
theorem Building.mayDefine_of_expand? {s : ProofState} {e expansion : Expression} {index : Nat}
    {t : ProofState} (h : (expand? e).run.run s = (.ok (some (index, expansion)), t)) :
    t.MayDefine index (.equals e expansion) := by
  unfold expand? at h
  split at h
  · cases h
  · rename_i head hhead
    have hrun : (Except.ok ((Frame.expandInnermost head e.args s.frames).run s.nextVariable).1,
        { s with nextVariable :=
          ((Frame.expandInnermost head e.args s.frames).run s.nextVariable).2 }) =
        (Except.ok (some (index, expansion)), t) := h
    obtain ⟨hresult, rfl⟩ := Prod.mk.inj hrun
    obtain ⟨inner, f, outer, hframes, hindex, a, ha, rfl, n, hexpand⟩ :=
      Frame.exists_of_expandInnermost (Except.ok.inj hresult)
    exact ⟨inner, f, outer, hframes, hindex,
      fun _ ↦ ⟨rfl, a, ha, e, expansion, n, hhead, hexpand, rfl⟩⟩

end NaturalDeduction
