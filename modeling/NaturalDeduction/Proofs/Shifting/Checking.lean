import NaturalDeduction.Checking.Report
import NaturalDeduction.Prelude
import NaturalDeduction.Proofs.Shifting.Scripts

/-!
# Checks do not depend on what ran before

All scripts of a run draw their variables from one counter, so where the counter stands when a
script is checked depends on the scripts that were checked before it. The verdict on a script does
not depend on that: a check that starts `d` further on supposes the prelude with shifted variables
and runs the script in step with the check it is compared to. It ends the same way, and leaves the
same state behind, shifted by `d` (`stateAfter_shift`).

So the status and the metrics of a run are a sum over its files, and sums do not depend on the order
of what is summed up (`summary_checkFiles`).

A check is a function of the configuration, the text and the counter. `conduct` splits it into the
prelude and the script, so that each part can be compared alone, and `reported` turns the end into
what is told about the file. Only the last step forgets the variables, and only there do two checks
become equal (`SameVerdict`). Main statement: `checks_independent`.
-/

namespace NaturalDeduction

variable {d : Nat}

/-! ### The prelude -/

namespace Prelude

open Expression

/-- The statements of the prelude are read from fixed texts, so only their variables depend on the
counter. -/
theorem statements_tracks : Fresh.Tracks d statements statements := by
  refine (Variable.fresh_tracks "a").bind fun a ↦ (Variable.fresh_tracks "b").bind fun b ↦ ?_
  refine (Variable.fresh_tracks "c").bind fun c ↦ (Variable.fresh_tracks "t").bind fun t ↦ ?_
  refine (Variable.fresh_tracks "x").bind fun x ↦ (Variable.fresh_tracks "y").bind fun y ↦ ?_
  exact (Variable.fresh_tracks "i").bind fun i ↦ .pure (by simp)

/-- The rules of the prelude are read from fixed texts, too. -/
theorem rules_tracks : Fresh.Tracks d rules rules := by
  refine (Variable.fresh_tracks "a").bind fun a ↦ (Variable.fresh_tracks "b").bind fun b ↦ ?_
  exact .pure (by simp)

/-- The abbreviation of the prelude renames what it is given and looks at no numbers. -/
theorem boundedQuantifier_uniform : boundedQuantifier.Uniform d := by
  intro args
  show Fresh.Tracks d (boundedAll args) (boundedAll (shift d args))
  match args with
  | [] | [_] => exact .pure rfl
  | set :: e :: rest =>
    cases e with
    | binder kind x body =>
      cases rest with
      | nil =>
        cases kind with
        | lambda =>
          refine .pure (congrArg some ?_)
          rw [shift_all, shift_implies, shift_call]
          rfl
        | _ => exact .pure rfl
      | cons => cases kind <;> exact .pure rfl
    | application items =>
      rw [shift_cons, shift_cons, shift_application]
      exact .pure rfl
    | _ => exact .pure rfl

/-- **The prelude on a shifted state is the shifted prelude.** -/
theorem install_tracks : Tracks d install install := by
  refine (Building.draw_tracks statements_tracks).bind fun statements ↦ ?_
  refine Tracks.bind (.forM_shift (fun p ↦ ?_) statements) fun _ ↦ ?_
  · exact (Building.suppose_tracks (some p.1) p.2).discard
  refine (Building.draw_tracks rules_tracks).bind fun rules ↦ ?_
  have hrule (r : Rule) : Tracks d (modify (·.addRule r) : Building PUnit)
      (modify (·.addRule (shift d r))) := by
    refine .modify ?_
    rintro s _ ⟨rfl, hs⟩
    exact ⟨s.addRule_shift r, hs⟩
  refine Tracks.bind (.forM_shift hrule rules) fun _ ↦ .modify ?_
  rintro s _ ⟨rfl, hs⟩
  exact ⟨rfl, hs.addAbbreviation boundedQuantifier_uniform⟩

end Prelude

/-! ### One script -/

namespace Checking

open Script

/-- The state that a script starts in, with or without the prelude. -/
def prepare (config : Config) (next : Nat) : Except Refusal Unit × ProofState :=
  if config.prelude then Prelude.install.run.run (.initial next config.searchLimit)
  else (.ok (), .initial next config.searchLimit)

/-- How a script ends, and the proof state that it leaves behind. If the prelude is refused, the
script is not run. -/
def conduct (config : Config) (text : String) (next : Nat) :
    Except Refusal (Except Stop Output) × ProofState :=
  match prepare config next with
  | (.error refusal, state) => (.error refusal, state)
  | (.ok (), state) =>
    let (result, session) :=
      Script.run (Search.prover External.none) text (⟨state, ()⟩ : Session Unit)
    (.ok result, session.state)

/-- What is reported about a script that ended like this, and its number of commands. -/
def reported (path : String) : Except Refusal (Except Stop Output) → Event × Nat
  | .error refusal => (⟨path, .failed, [], [], some refusal.message, none⟩, 0)
  | .ok (.ok output) =>
    match output.aborted with
    | none => (⟨path, .verified, output.proved, output.shown, none, none⟩, output.commands)
    | some abort =>
      (⟨path, .aborted, output.proved, output.shown, some abort.reason, none⟩, output.commands)
  | .ok (.error stop) => (⟨path, .failed, [], [], some (stopMessage stop), stop.line?⟩, 0)

/-- A check reports how the script ends, and hands on the counter of the state that is left. -/
theorem checkText_eq (config : Config) (path text : String) (next : Nat) :
    checkText config path text next =
      (reported path (conduct config text next).1, (conduct config text next).2.nextVariable) := by
  rw [checkText, conduct, prepare]
  dsimp only
  generalize ite (config.prelude = true) _ _ = prepared
  rcases prepared with ⟨_ | ⟨⟩, state⟩
  · rfl
  · dsimp only
    rcases Script.run (Search.prover External.none) text (⟨state, ()⟩ : Session Unit) with
      ⟨stop | ⟨shown, proved, commands, _ | abort⟩, session⟩ <;> rfl

/-- Two reports on a script that say the same, up to what was shown and to messages. -/
structure SameVerdict (report report' : Event × Nat) : Prop where
  outcome : report'.1.outcome = report.1.outcome
  proved : report'.1.proved = report.1.proved
  line : report'.1.line = report.1.line
  commands : report'.2 = report.2

/-- Two ends of a script of which the second one is the first one, shifted. -/
def EndsAgree (d : Nat) :
    Except Refusal (Except Stop Output) → Except Refusal (Except Stop Output) → Prop
  | .ok result, .ok result' => ResultsAgree d result result'
  | .error refusal, .error refusal' => refusal' = shift d refusal
  | _, _ => False

/-- Preparing a state installs the prelude at the counter, or nothing. -/
theorem prepare_tracks (config : Config) (n d : Nat) :
    (prepare config (n + d)).1 = shift d (prepare config n).1 ∧
      Follows d (prepare config n).2 (prepare config (n + d)).2 := by
  have hinitial : Follows d (ProofState.initial n config.searchLimit)
      (ProofState.initial (n + d) config.searchLimit) :=
    ⟨rfl, fun a ha ↦ absurd ha List.not_mem_nil⟩
  rw [prepare, prepare]
  split
  · exact Prelude.install_tracks _ _ hinitial
  · exact ⟨rfl, hinitial⟩

/-- A check prepares a state and runs the script on it. -/
theorem conduct_tracks (config : Config) (text : String) (n d : Nat) :
    EndsAgree d (conduct config text n).1 (conduct config text (n + d)).1 ∧
      Follows d (conduct config text n).2 (conduct config text (n + d)).2 := by
  obtain ⟨hresult, hstate⟩ := prepare_tracks config n d
  rw [conduct, conduct]
  revert hresult hstate
  rcases prepare config n with ⟨_ | ⟨⟩, s⟩ <;> rcases prepare config (n + d) with ⟨_ | ⟨⟩, t⟩ <;>
    intro hresult hstate <;> cases hresult
  · exact ⟨rfl, hstate⟩
  · have hsession : Follows d (⟨s, ()⟩ : Session Unit) ⟨t, ()⟩ := ⟨hstate, rfl⟩
    obtain ⟨hresult, hsession⟩ :=
      run_tracks (Search.prover_uniform External.none_uniform) text hsession
    exact ⟨hresult, hsession.1⟩

/-- Ends that agree are reported with the same outcome, line and number of theorems. -/
theorem EndsAgree.sameVerdict {end₁ end₂ : Except Refusal (Except Stop Output)}
    (h : EndsAgree d end₁ end₂) (path : String) :
    SameVerdict (reported path end₁) (reported path end₂) := by
  match end₁, end₂, h with
  | .error _, .error _, _ => exact ⟨rfl, rfl, rfl, rfl⟩
  | .ok (.error stop), .ok (.error _), h =>
    obtain rfl : _ = shift d stop := h
    exact ⟨rfl, rfl, stop.line?_shift, rfl⟩
  | .ok (.ok output), .ok (.ok output'), h =>
    obtain ⟨hproved, hcommands, haborted⟩ : output.Agrees output' := h
    dsimp only [reported]
    rw [haborted]
    cases output.aborted <;> exact ⟨rfl, hproved, rfl, hcommands⟩

/-- The verdict on a script does not depend on where the counter stands. -/
theorem checkText_sameVerdict (config : Config) (path text : String) (n m : Nat) :
    SameVerdict (checkText config path text n).1 (checkText config path text m).1 := by
  have hfrom (n d : Nat) :
      SameVerdict (checkText config path text n).1 (checkText config path text (n + d)).1 := by
    rw [checkText_eq, checkText_eq]
    exact (conduct_tracks config text n d).1.sameVerdict path
  rcases Nat.le_total n m with h | h
  · obtain ⟨d, rfl⟩ := Nat.exists_eq_add_of_le h
    exact hfrom n d
  · obtain ⟨d, rfl⟩ := Nat.exists_eq_add_of_le h
    obtain ⟨houtcome, hproved, hline, hcommands⟩ := hfrom m d
    exact ⟨houtcome.symm, hproved.symm, hline.symm, hcommands.symm⟩

/-! ### Many scripts -/

/-- What a report says about all scripts together. -/
def summary : Except Failure Report → Option (Status × Metrics)
  | .ok report => some (report.status, report.metrics)
  | .error _ => none

/-- The status and the metrics after one more file, if it can be read. Where the counter stands does
not matter, so it is checked from zero. -/
def tally (config : Config) (sofar : Status × Metrics) (file : String × FileTree) :
    Option (Status × Metrics) :=
  match file.2.text with
  | .error _ => none
  | .ok text =>
    let (event, commands) := (checkText config file.1 text 0).1
    some (sofar.1.after event.outcome, sofar.2.after event commands)

/-- The metrics count outcomes and theorems and nothing else. -/
theorem Metrics.after_congr {m : Metrics} {e e' : Event} {c : Nat}
    (houtcome : e'.outcome = e.outcome) (hproved : e'.proved = e.proved) :
    m.after e' c = m.after e c := by
  rw [after, after, houtcome, hproved]

/-- The report after one more script. -/
def Report.after (report : Report) (checked : Event × Nat) : Report where
  status := report.status.after checked.1.outcome
  metrics := report.metrics.after checked.1 checked.2
  events := report.events ++ [checked.1]

/-- A file that can be read is checked at the counter that the files before it left. -/
theorem checkFiles_cons_run {config : Config} {report : Report} {path text : String}
    {tree : FileTree} {rest : List (String × FileTree)} (h : tree.text = .ok text) (n : Nat) :
    (checkFiles config report ((path, tree) :: rest)).run.run n =
      (checkFiles config (report.after (checkText config path text n).1) rest).run.run
        (checkText config path text n).2 := by
  rw [checkFiles, h]
  rfl

/-- **What is reported about all scripts together** is summed up file by file. -/
theorem summary_checkFiles (config : Config) (report : Report) (files : List (String × FileTree))
    (n : Nat) : summary ((checkFiles config report files).run.run n).1 =
      files.foldlM (tally config) (report.status, report.metrics) := by
  induction files generalizing report n with
  | nil => rfl
  | cons file rest ih =>
    obtain ⟨path, tree⟩ := file
    rw [List.foldlM_cons, tally]
    cases h : tree.text with
    | error message =>
      rw [checkFiles, h]
      rfl
    | ok text =>
      obtain ⟨houtcome, hproved, -, hcommands⟩ := checkText_sameVerdict config path text 0 n
      rw [checkFiles_cons_run h, ih, Report.after, houtcome, hcommands,
        Metrics.after_congr houtcome hproved]
      rfl

/-- A status is the worst outcome so far, and the order of outcomes does not matter for that. -/
theorem Status.after_comm (s : Status) (o o' : Outcome) :
    (s.after o).after o' = (s.after o').after o := by
  cases s <;> cases o <;> cases o' <;> rfl

/-- Counts are added up, in any order. -/
theorem Metrics.after_comm (m : Metrics) (e e' : Event) (c c' : Nat) :
    (m.after e c).after e' c' = (m.after e' c').after e c := by
  simp only [after]
  cases e.outcome <;> cases e'.outcome <;> simp [Nat.add_right_comm]

/-- Two files may be exchanged, also where one of them cannot be read and ends the run. -/
theorem tally_comm (config : Config) (sofar : Status × Metrics) (f g : String × FileTree) :
    (tally config sofar f >>= (tally config · g)) =
      (tally config sofar g >>= (tally config · f)) := by
  unfold tally
  cases f.2.text with
  | error _ => cases g.2.text <;> rfl
  | ok text =>
    cases g.2.text with
    | error _ => rfl
    | ok text' =>
      exact congrArg some (Prod.ext (Status.after_comm ..) (Metrics.after_comm ..))

/-- So all files may be: a permutation is made of exchanges of neighbours. -/
theorem foldlM_tally_perm (config : Config) {files files' : List (String × FileTree)}
    (h : files.Perm files') (sofar : Status × Metrics) :
    files.foldlM (tally config) sofar = files'.foldlM (tally config) sofar := by
  induction h generalizing sofar with
  | nil => rfl
  | cons f _ ih =>
    rw [List.foldlM_cons, List.foldlM_cons]
    exact congrArg (tally config sofar f >>= ·) (funext ih)
  | swap f g rest =>
    simp only [List.foldlM_cons]
    rw [← bind_assoc, ← bind_assoc, tally_comm]
  | trans _ _ ih₁ ih₂ => exact (ih₁ sofar).trans (ih₂ sofar)

/-- Every script counts as verified, as aborted or as failed. -/
def Metrics.Balanced (m : Metrics) : Prop := m.total = m.verified + m.aborted + m.failed

/-- Each file is counted once as checked and once by its outcome. -/
theorem Metrics.balanced_after {m : Metrics} (h : m.Balanced) (e : Event) (c : Nat) :
    (m.after e c).Balanced := by
  unfold Balanced after at *
  split <;> dsimp only <;> omega

/-! ### Paths -/

/-- The scripts under a path where something is found. -/
def scriptsUnder (config : Config) (look : String → Option FileTree) (path : String) :
    List (String × FileTree) :=
  match look path with
  | none => []
  | some tree => if tree.isDirectory then tree.scripts config.extension path "" else [(path, tree)]

/-- If something is found under all paths, what is collected is what is found, path by path. -/
theorem collect_eq_ok_iff {config : Config} {look : String → Option FileTree} {paths : List String}
    {files : List (String × FileTree)} : collect config look paths = .ok files ↔
      (∀ path ∈ paths, (look path).isSome) ∧ files = paths.flatMap (scriptsUnder config look) := by
  induction paths generalizing files with
  | nil =>
    rw [collect, List.flatMap_nil, Except.ok.injEq, eq_comm]
    exact (and_iff_right fun path hpath ↦ absurd hpath List.not_mem_nil).symm
  | cons path rest ih =>
    rw [collect, List.forall_mem_cons, List.flatMap_cons, scriptsUnder]
    cases look path with
    | none => simp
    | some tree =>
      dsimp only
      cases hrest : collect config look rest with
      | error failure =>
        rw [hrest] at ih
        refine ⟨fun h ↦ (nomatch h), fun h ↦ ?_⟩
        cases ih.2 ⟨h.1.2, rfl⟩
      | ok found =>
        obtain ⟨hfound, rfl⟩ := ih.1 hrest
        refine ⟨fun h ↦ ⟨⟨rfl, hfound⟩, (Except.ok.inj h).symm⟩, ?_⟩
        rintro ⟨-, rfl⟩
        rfl

/-- Exchanged paths lead to exchanged files. -/
theorem collect_perm {config : Config} {look : String → Option FileTree}
    {paths paths' : List String} (h : paths.Perm paths') {files : List (String × FileTree)}
    (hfiles : collect config look paths = .ok files) :
    ∃ files', collect config look paths' = .ok files' ∧ files.Perm files' := by
  obtain ⟨hfound, rfl⟩ := collect_eq_ok_iff.1 hfiles
  refine ⟨_, collect_eq_ok_iff.2 ⟨fun path hpath ↦ hfound path (h.mem_iff.2 hpath), rfl⟩, ?_⟩
  exact h.flatMap_right (scriptsUnder config look)

/-- The summary of a run is the tally of the files that were collected, and a run without files has
none. -/
theorem summary_run_of_collect {config : Config} {look : String → Option FileTree}
    {paths : List String} {files : List (String × FileTree)}
    (h : collect config look paths = .ok files) (n : Nat) :
    summary ((run config look paths).run.run n).1 =
      if files = [] then none else files.foldlM (tally config) (.good, {}) := by
  rw [run, h]
  cases files with
  | nil => rfl
  | cons file rest =>
    rw [if_neg (List.cons_ne_nil _ _)]
    exact summary_checkFiles config ⟨.good, {}, []⟩ (file :: rest) n

/-- The order of paths and the counter at the start make no difference to the summary. -/
theorem summary_run_perm (config : Config) (look : String → Option FileTree)
    {paths paths' : List String} (h : paths.Perm paths') (n m : Nat) :
    summary ((run config look paths).run.run n).1 =
      summary ((run config look paths').run.run m).1 := by
  cases hfiles : collect config look paths with
  | ok files =>
    obtain ⟨files', hfiles', hperm⟩ := collect_perm h hfiles
    rw [summary_run_of_collect hfiles, summary_run_of_collect hfiles',
      foldlM_tally_perm config hperm]
    simp only [← List.isEmpty_iff, hperm.isEmpty_eq]
  | error failure =>
    cases hfiles' : collect config look paths' with
    | ok files' =>
      obtain ⟨files, hok, -⟩ := collect_perm h.symm hfiles'
      rw [hfiles] at hok
      cases hok
    | error failure' =>
      rw [run, run, hfiles, hfiles']
      rfl

/-- **Whatever order files are checked in, and wherever the counter stands**, the same is reported
about all of them together. -/
theorem summary_checkFiles_perm (config : Config) (report : Report)
    {files files' : List (String × FileTree)} (h : files.Perm files') (n m : Nat) :
    summary ((checkFiles config report files).run.run n).1 =
      summary ((checkFiles config report files').run.run m).1 := by
  rw [summary_checkFiles, summary_checkFiles, foldlM_tally_perm config h]

/-- Checking files keeps the counts balanced. -/
theorem checkFiles_balanced {config : Config} {report r : Report}
    {files : List (String × FileTree)} {n : Nat} (hreport : report.metrics.Balanced)
    (h : ((checkFiles config report files).run.run n).1 = .ok r) : r.metrics.Balanced := by
  induction files generalizing report n with
  | nil =>
    cases h
    exact hreport
  | cons file rest ih =>
    obtain ⟨path, tree⟩ := file
    cases htext : tree.text with
    | error message =>
      rw [checkFiles, htext] at h
      cases h
    | ok text =>
      rw [checkFiles_cons_run htext] at h
      exact ih (Metrics.balanced_after hreport _ _) h

/-- The metrics of a run are balanced: every file that was checked was verified, aborted or failed.
-/
theorem run_balanced {config : Config} {look : String → Option FileTree} {paths : List String}
    {n : Nat} {r : Report} (h : ((run config look paths).run.run n).1 = .ok r) :
    r.metrics.Balanced := by
  rw [run] at h
  split at h
  · cases h
  · cases h
  · have hstart : (⟨.good, {}, []⟩ : Report).metrics.Balanced := rfl
    exact checkFiles_balanced hstart h

/-- The proof state that the check of a script leaves behind. -/
def stateAfter (config : Config) (text : String) (next : Nat) : ProofState :=
  (conduct config text next).2

/-- **A check that starts further on leaves the same state behind**, shifted. -/
theorem stateAfter_shift (config : Config) (text : String) (n d : Nat) :
    stateAfter config text (n + d) = shift d (stateAfter config text n) :=
  (conduct_tracks config text n d).2.1

/-- **Checks do not depend on what ran before.** Wherever the counter stands, the verdict on a
script is the same, and what the check leaves behind has the same names in the same order, with
statements that differ by the shift. So the status and the metrics of a run are the same in any
order of the paths, or of the files, and every file counts as verified, as aborted or as failed. -/
theorem checks_independent (config : Config) :
    (∀ path text n m,
      SameVerdict (checkText config path text n).1 (checkText config path text m).1) ∧
    (∀ text n d,
      (stateAfter config text (n + d)).history.map (·.name) =
          (stateAfter config text n).history.map (·.name) ∧
        (stateAfter config text (n + d)).history.map (·.statement) =
          shift d ((stateAfter config text n).history.map (·.statement))) ∧
    (∀ look paths paths', List.Perm paths paths' → ∀ n m,
      summary ((run config look paths).run.run n).1 =
        summary ((run config look paths').run.run m).1) ∧
    (∀ files files', List.Perm files files' → ∀ n m,
      summary ((checkFiles config ⟨.good, {}, []⟩ files).run.run n).1 =
        summary ((checkFiles config ⟨.good, {}, []⟩ files').run.run m).1) ∧
    ∀ look paths n status metrics,
      summary ((run config look paths).run.run n).1 = some (status, metrics) →
        metrics.total = metrics.verified + metrics.aborted + metrics.failed := by
  refine ⟨checkText_sameVerdict config, fun text n d ↦ ?_,
    fun look _ _ ↦ summary_run_perm config look, fun _ _ ↦ summary_checkFiles_perm config _,
    fun look paths n status metrics h ↦ ?_⟩
  · rw [stateAfter_shift, ProofState.history_shift]
    refine ⟨?_, map_shift Entry.statement_shift _⟩
    exact (map_shift Entry.name_shift _).trans (shift_constant d _)
  · cases hresult : ((run config look paths).run.run n).1 with
    | error failure =>
      rw [hresult] at h
      cases h
    | ok report =>
      rw [hresult] at h
      cases h
      exact run_balanced hresult

/-- A script that runs to its end, and one that is aborted. -/
def twoScripts : List (String × FileTree) :=
  [("a", .file "(verify (< 1 2))".toUTF8), ("b", .file "(abort)".toUTF8)]

/-- Two scripts in one order and in the other, with the counter at one and at five. -/
theorem checks_independent_reversed :
    summary ((run {} (twoScripts.lookup ·) ["a", "b"]).run.run 1).1 =
        some (.warning, ⟨2, 1, 1, 0, 2, 0⟩) ∧
      summary ((run {} (twoScripts.lookup ·) ["b", "a"]).run.run 5).1 =
        some (.warning, ⟨2, 1, 1, 0, 2, 0⟩) ∧
      summary ((checkFiles {} ⟨.good, {}, []⟩ twoScripts).run.run 1).1 =
        summary ((checkFiles {} ⟨.good, {}, []⟩ twoScripts.reverse).run.run 5).1 ∧
      2 = 1 + 1 + 0 := by
  obtain ⟨-, -, hpaths, hfiles, htotal⟩ := checks_independent {}
  have hrun : summary ((run {} (twoScripts.lookup ·) ["a", "b"]).run.run 1).1 =
      some (.warning, ⟨2, 1, 1, 0, 2, 0⟩) := by decide +kernel
  refine ⟨hrun, ?_, hfiles _ _ twoScripts.reverse_perm.symm 1 5, htotal _ _ 1 _ _ hrun⟩
  rw [← hrun]
  exact (hpaths _ _ _ (.swap "b" "a" []) 1 5).symm

end Checking

end NaturalDeduction
