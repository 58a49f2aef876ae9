import Mathlib.Data.List.Forall2
import Rehome.CommandLine.Run
import Rehome.Proofs.Build.Confinement
import Rehome.Proofs.Path.Normal
import Rehome.Proofs.Settings.Loading

/-! What the options of a command line make a build work on. A destination may come from the options, from the
environment or from the settings, and sources from the options or from the settings. All but what the options name is
seen from the directory of the settings file, and once it is, it is the same from everywhere. -/

namespace Rehome

namespace Build

/-- A build depends on its working directory only by where its destination is. -/
theorem run_congr {cwd cwd' d d' : Text} (c : Settings) (h : Path.absolute cwd d = Path.absolute cwd' d') :
    run cwd { c with destination := d } = run cwd' { c with destination := d' } := by
  unfold run
  dsimp only
  rw [h]

end Build

namespace CommandLine

theorem mapM_eq_ok {α β ε : Type} {f : α → Except ε β} {as : List α} {bs : List β} :
    as.mapM f = .ok bs ↔ List.Forall₂ (fun a b => f a = .ok b) as bs := by
  induction as generalizing bs with
  | nil =>
    rw [List.mapM_nil, List.forall₂_nil_left_iff]
    exact ⟨fun h => (Except.ok.inj h).symm, fun h => congrArg Except.ok h.symm⟩
  | cons a as ih =>
    rw [List.mapM_cons, List.forall₂_cons_left_iff]
    rcases f a with e | b
    · exact ⟨nofun, nofun⟩
    rcases hrest : as.mapM f with e | bs'
    · refine ⟨nofun, ?_⟩
      rintro ⟨b', bs', -, h, -⟩
      rw [← ih, hrest] at h
      cases h
    · constructor
      · rintro ⟨⟩
        exact ⟨b, bs', rfl, ih.1 hrest, rfl⟩
      · rintro ⟨b', bs'', ⟨⟩, h, rfl⟩
        rw [← ih, hrest] at h
        cases h
        rfl

namespace Prepare

variable {env : Environment} {o : Prepare} {s : Host} {c : Settings} {args : List (Option Text)} {ps : List Package}

/-- Packages are given and no settings file, so that none is read. -/
def Unfiled (o : Prepare) : Prop := o.packages ≠ [] ∧ o.settingsFile = []

instance (o : Prepare) : Decidable o.Unfiled := inferInstanceAs (Decidable (_ ∧ _))

def file (env : Environment) (o : Prepare) : Text := Settings.fileOf env (some o.settingsFile)

/-- The directory that the paths of the settings are seen from. -/
def base (env : Environment) (o : Prepare) : Text := if o.Unfiled then env.cwd else Path.parent (o.file env)

/-- The settings that the text of the file spells, or the default ones where no file is read. -/
def Draws (env : Environment) (o : Prepare) (s : Host) (c : Settings) : Prop :=
  if o.Unfiled then c = {}
  else ∃ t, s.perform (Action.read (o.file env)) = (.ok t, s) ∧ Settings.ofText (o.file env) t = .ok c

/-- The packages that the options name, as they name them. Without any, the packages of the settings, with their
sources as these are seen from the base. -/
def Chooses (env : Environment) (o : Prepare) (c : Settings) (ps : List Package) : Prop :=
  if o.packages = [] then
    ps = c.packages.map fun p => { p with sourceDir := Path.absolute (o.base env) p.sourceDir }
  else List.Forall₂ (fun arg p => ∃ a, arg = some a ∧ Package.ofArgument a = .ok p) o.packages ps

/-- The destination of the options as it is seen from the working directory. Without one, that of the environment or
else that of the settings, as it is seen from the base. -/
def destinationOf (env : Environment) (o : Prepare) (c : Settings) : Text :=
  if o.destination ≠ [] then Path.absolute env.cwd o.destination
  else Path.absolute (o.base env) (env.destination.getD c.destination)

theorem packagesOf_eq_ok : packagesOf args = .ok ps ↔
    List.Forall₂ (fun arg p => ∃ a, arg = some a ∧ Package.ofArgument a = .ok p) args ps := by
  unfold packagesOf
  rw [mapM_eq_ok]
  constructor
  · refine fun h => h.imp fun arg p hp => ?_
    cases arg with
    | none => cases hp
    | some a =>
      refine ⟨a, rfl, ?_⟩
      have hmap : (Package.ofArgument a).mapError Fault.badArgument = .ok p := hp
      rcases ha : Package.ofArgument a with e | p' <;> rw [ha] at hmap <;> cases hmap
      rfl
  · refine fun h => h.imp fun arg p hp => ?_
    obtain ⟨a, rfl, ha⟩ := hp
    show (Package.ofArgument a).mapError Fault.badArgument = .ok p
    rw [ha]
    rfl

theorem chooses_iff (h : o.packages ≠ []) : o.Chooses env c ps ↔ packagesOf o.packages = .ok ps := by
  rw [Chooses, if_neg h, packagesOf_eq_ok]

theorem draws_iff (h : ¬ o.Unfiled) : o.Draws env s c ↔
    ∃ t, s.perform (Action.read (o.file env)) = (.ok t, s) ∧ Settings.ofText (o.file env) t = .ok c := by
  rw [Draws, if_neg h]

/-- The settings of a run without regard to the destination that the options name. -/
def drawn (env : Environment) (o : Prepare) : Action Settings :=
  if o.packages = [] then Settings.load env (some o.settingsFile)
  else do
    let packages ← liftExcept (packagesOf o.packages)
    if o.settingsFile = [] then pure (Settings.placeDestination env env.cwd { packages })
    else do
      let s ← Settings.load env (some o.settingsFile)
      pure { s with packages }

def overriding (o : Prepare) (c : Settings) : Settings :=
  if o.destination = [] then c else { c with destination := o.destination }

theorem settings_eq (env : Environment) (o : Prepare) : o.settings env = o.overriding <$> o.drawn env := by
  unfold settings drawn
  dsimp only
  split
  · exact (map_eq_pure_bind _ _).symm
  · rw [map_bind]
    refine bind_congr fun packages => ?_
    split <;> simp only [map_eq_pure_bind, bind_assoc] <;> rfl

theorem exists_perform_drawn (s : Host) (env : Environment) (o : Prepare) :
    ∃ r, s.perform (o.drawn env) = (r, s) ∧
      ∀ c', r = .ok c' ↔ ∃ c ps, o.Draws env s c ∧ o.Chooses env c ps ∧
        { c with
          destination := Path.absolute (o.base env) (env.destination.getD c.destination)
          packages := ps } = c' := by
  obtain ⟨r, hload, hr⟩ := Settings.exists_perform_load s env (some o.settingsFile)
  unfold drawn
  -- The cases are those of the options; only one of them is a run that reads no file.
  by_cases hps : o.packages = []
  · have hfiled : ¬ o.Unfiled := fun h => h.1 hps
    refine ⟨r, by rw [if_pos hps, hload], fun c' => (hr c').trans ?_⟩
    simp only [draws_iff hfiled, Chooses, if_pos hps, base, if_neg hfiled]
    constructor
    · rintro ⟨t, c, ht, hc, rfl⟩
      exact ⟨c, _, ⟨t, ht, hc⟩, rfl, rfl⟩
    · rintro ⟨c, _, ⟨t, ht, hc⟩, rfl, rfl⟩
      exact ⟨t, c, ht, hc, rfl⟩
  rw [if_neg hps]
  rcases hpackages : packagesOf o.packages with f | ps
  · refine ⟨.error f, rfl, fun c' => ⟨nofun, ?_⟩⟩
    rintro ⟨c, ps, -, hchoose, -⟩
    rw [chooses_iff hps, hpackages] at hchoose
    cases hchoose
  by_cases hfile : o.settingsFile = []
  · have hunfiled : o.Unfiled := ⟨hps, hfile⟩
    refine ⟨.ok (Settings.placeDestination env env.cwd { packages := ps }), ?_, fun c' => ?_⟩
    · show s.perform (ite _ _ _) = _
      rw [if_pos hfile]
      rfl
    simp only [Draws, if_pos hunfiled, chooses_iff hps, hpackages, base]
    constructor
    · rintro ⟨⟩
      exact ⟨_, _, rfl, rfl, rfl⟩
    · rintro ⟨_, _, rfl, ⟨⟩, rfl⟩
      rfl
  · have hfiled : ¬ o.Unfiled := fun h => hfile h.2
    refine ⟨r.map fun c => { c with packages := ps }, ?_, fun c' => ?_⟩
    · show s.perform (ite _ _ _) = _
      rw [if_neg hfile, ← map_eq_pure_bind, Host.perform_map, hload]
      cases r <;> rfl
    · simp only [Checked.map_eq_ok, hr, draws_iff hfiled, chooses_iff hps, hpackages, base, if_neg hfiled]
      constructor
      · rintro ⟨_, ⟨t, c, ht, hc, rfl⟩, rfl⟩
        exact ⟨c, _, ⟨t, ht, hc⟩, rfl, rfl⟩
      · rintro ⟨c, _, ⟨t, ht, hc⟩, ⟨⟩, rfl⟩
        exact ⟨_, ⟨t, c, ht, hc, rfl⟩, rfl⟩

/-! ### Runs -/

/-- The settings that a build works by, with every path in its place. -/
def placed (env : Environment) (o : Prepare) (c : Settings) (ps : List Package) : Settings :=
  { c with destination := o.destinationOf env c, packages := ps }

theorem isAbsolute_base (hcwd : Path.isAbsolute env.cwd = true) (o : Prepare) :
    Path.isAbsolute (o.base env) = true := by
  unfold base file Settings.fileOf
  split
  · exact hcwd
  · split <;> exact FileSystem.isAbsolute_parent (Path.isAbsolute_absolute hcwd _)

/-- The destination is the same from everywhere. -/
theorem absolute_destinationOf (hcwd : Path.isAbsolute env.cwd = true) (o : Prepare) (c : Settings) (cwd : Text) :
    Path.absolute cwd (o.destinationOf env c) = o.destinationOf env c := by
  unfold destinationOf
  split
  · exact Path.absolute_absolute hcwd cwd _
  · exact Path.absolute_absolute (isAbsolute_base hcwd o) cwd _

theorem run_overriding (hcwd : Path.isAbsolute env.cwd = true) (o : Prepare) (c : Settings) (ps : List Package)
    (cwd : Text) :
    Build.run env.cwd (o.overriding
      { c with
        destination := Path.absolute (o.base env) (env.destination.getD c.destination)
        packages := ps }) = Build.run cwd (o.placed env c ps) := by
  by_cases hd : o.destination = []
  · rw [overriding, if_pos hd]
    refine Build.run_congr { c with packages := ps } ?_
    rw [absolute_destinationOf hcwd, destinationOf, if_neg (not_not.2 hd),
      Path.absolute_absolute (isAbsolute_base hcwd o)]
  · rw [overriding, if_neg hd]
    refine Build.run_congr { c with packages := ps } ?_
    rw [absolute_destinationOf hcwd, destinationOf, if_pos hd]

theorem perform_run (hcwd : Path.isAbsolute env.cwd = true) (hdraw : o.Draws env s c)
    (hchoose : o.Chooses env c ps) (cwd : Text) :
    s.perform (o.run env) = s.perform (report <$> Build.run cwd (o.placed env c ps)) := by
  obtain ⟨r, hdrawn, hr⟩ := exists_perform_drawn s env o
  obtain rfl := (hr _).2 ⟨c, ps, hdraw, hchoose, rfl⟩
  unfold run
  rw [settings_eq, Host.perform_bind, Host.perform_map, hdrawn]
  dsimp only
  rw [← map_eq_pure_bind, run_overriding hcwd o c ps cwd]

/-- Without settings or without packages a run ends before it builds anything. -/
theorem perform_run_of_not (h : ¬ ∃ c ps, o.Draws env s c ∧ o.Chooses env c ps) :
    ∃ f, s.perform (o.run env) = (.error f, s) := by
  obtain ⟨r, hdrawn, hr⟩ := exists_perform_drawn s env o
  rcases r with f | c'
  · refine ⟨f, ?_⟩
    unfold run
    rw [settings_eq, Host.perform_bind, Host.perform_map, hdrawn]
  · obtain ⟨c, ps, hdraw, hchoose, -⟩ := (hr c').1 rfl
    exact absurd ⟨c, ps, hdraw, hchoose⟩ h

end Prepare

variable {env : Environment} {s : Host}

theorem perform_reporting_congr {x y : Action Text} (h : s.perform x = s.perform y) :
    s.perform (reporting x) = s.perform (reporting y) := by
  rw [reporting, reporting, Host.perform_tryCatch, Host.perform_tryCatch, Host.perform_map, Host.perform_map, h]

theorem perform_reporting_of_error {x : Action Text} {f : Fault} (h : s.perform x = (.error f, s)) :
    s.perform (reporting x) = (.error f, s) ∨ s.perform (reporting x) = (.ok (.failed f), s) := by
  rw [reporting, Host.perform_tryCatch, Host.perform_map, h]
  dsimp only
  split
  · exact .inl rfl
  · exact .inr rfl

/-- A run checks, cleans and fills the one destination that is meant, and copies the packages that are meant, wherever
its build is seen from. Any other run changes nothing. A path that was once seen from an absolute one is not moved by
being seen from another. -/
theorem run_intended (hcwd : Path.isAbsolute env.cwd = true) :
    (∀ (s : Host) (ws : List Text) (verbose : Bool) (o : Prepare), parse ws = .ok (verbose, .prepare o) →
      (∀ c ps, o.Draws env s c → o.Chooses env c ps → ∀ cwd,
        s.perform (run env ws) = s.perform (reporting (Prepare.report <$> Build.run cwd (o.placed env c ps))) ∧
          Build.run cwd (o.placed env c ps) = (do
            Build.checkDestination ps (o.destinationOf env c) c.manifestName
            Build.cleanDestination (o.destinationOf env c)
            Build.fill (o.destinationOf env c) (o.placed env c ps))) ∧
      ((¬ ∃ c ps, o.Draws env s c ∧ o.Chooses env c ps) →
        ∃ f, s.perform (run env ws) = (.error f, s) ∨ s.perform (run env ws) = (.ok (.failed f), s))) ∧
    ∀ base base' p : Text, Path.isAbsolute base = true →
      Path.absolute base' (Path.absolute base p) = Path.absolute base p := by
  refine ⟨fun s ws verbose o hws => ?_, fun base base' p hbase => Path.absolute_absolute hbase base' p⟩
  have hrun : run env ws = reporting (o.run env) := by
    rw [run, hws]
    rfl
  rw [hrun]
  refine ⟨fun c ps hdraw hchoose cwd => ⟨?_, ?_⟩, fun hnone => ?_⟩
  · exact perform_reporting_congr (Prepare.perform_run hcwd hdraw hchoose cwd)
  · have hdestination : Path.absolute cwd (o.placed env c ps).destination = o.destinationOf env c :=
      Prepare.absolute_destinationOf hcwd o c cwd
    rw [Build.run_eq, hdestination]
    rfl
  · obtain ⟨f, hf⟩ := Prepare.perform_run_of_not hnone
    exact ⟨f, perform_reporting_of_error hf⟩

/-- A run by the settings file and the environment, and one by options alone. -/
theorem run_intended_desk :
    let env : Environment := { cwd := "/w".toList, destination := some "gen".toList }
    let host := Settings.desk (.text Settings.deskText)
    host.perform (run env ["prepare".toList]) = host.perform (reporting (Prepare.report <$> Build.run "/".toList
        { destination := "/w/gen".toList
          workers := 2
          packages := [{ home := "three".toList, sourceDir := "/lib".toList }] })) ∧
      host.perform (run env (["prepare", "-p", "a=src", "-d", "out/."].map (·.toList))) =
        host.perform (reporting (Prepare.report <$> Build.run "/".toList
          { destination := "/w/out".toList
            packages := [{ home := "a".toList, sourceDir := "src".toList }] })) ∧
      Path.absolute "/w".toList (Path.absolute "//r".toList "a/../b".toList) = "//r/b".toList := by
  intro env host
  have hcwd : Path.isAbsolute env.cwd = true := by decide
  obtain ⟨hruns, hpaths⟩ := run_intended hcwd
  refine ⟨?_, ?_, ?_⟩
  · let o : Prepare := {}
    let c : Settings := { workers := 2, packages := [{ home := "three".toList, sourceDir := "../lib".toList }] }
    have hdraw : o.Draws env host c := by
      refine (Prepare.draws_iff (by decide)).2 ⟨Settings.deskText, Host.perform_read_ok_iff.2 ⟨rfl, ?_, ?_⟩, ?_⟩
      all_goals decide +kernel
    have hchoose : o.Chooses env c [{ home := "three".toList, sourceDir := "/lib".toList }] := by
      rw [Prepare.Chooses, if_pos rfl]
      decide +kernel
    have hrun := ((hruns host ["prepare".toList] false o (by decide +kernel)).1 c _ hdraw hchoose "/".toList).1
    have hdestination : o.destinationOf env c = "/w/gen".toList := by decide +kernel
    rw [hrun, Prepare.placed, hdestination]
  · let o : Prepare := { destination := "out/.".toList, packages := [some "a=src".toList] }
    have hdraw : o.Draws env host {} := by
      rw [Prepare.Draws, if_pos (by decide)]
    have hchoose : o.Chooses env {} [{ home := "a".toList, sourceDir := "src".toList }] := by
      rw [Prepare.Chooses, if_neg (by decide)]
      exact .cons ⟨_, rfl, by decide +kernel⟩ .nil
    have hrun := ((hruns host (["prepare", "-p", "a=src", "-d", "out/."].map (·.toList)) false o
      (by decide +kernel)).1 {} _ hdraw hchoose "/".toList).1
    have hdestination : o.destinationOf env {} = "/w/out".toList := by decide +kernel
    rw [hrun, Prepare.placed, hdestination]
  · rw [hpaths _ _ _ (by decide)]
    decide +kernel

end CommandLine

end Rehome
