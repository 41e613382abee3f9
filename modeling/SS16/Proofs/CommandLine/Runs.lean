import SS16.CommandLine.Run
import SS16.Proofs.CommandLine.Writing

/-!
# SS16.Proofs.CommandLine.Runs — a run writes its output completely or not at all

A run that is to assemble a file succeeds exactly if the file is there, is text and is assembled, and
the output path leads to a file.  Then this file holds the object and all others are as before; every
other run leaves the directory as it is.  Main statements: `compile_cases` and
`run_writes_all_or_nothing`.
-/

namespace SS16.CommandLine

/-- A path leads to a file that is text and assembled. -/
def Directory.Assembles (d : Directory) (path : String) (a : Assembly) : Prop :=
  ∃ bytes source, d.read path = .ok bytes ∧ String.fromUTF8? bytes = some source ∧
    assemble source = .ok a

theorem read_decode_eq_ok_iff {d : Directory} {path source : String} :
    d.read path >>= decode = .ok source ↔
      ∃ bytes, d.read path = .ok bytes ∧ String.fromUTF8? bytes = some source := by
  refine Results.bind_eq_ok_iff.trans (exists_congr fun bytes => and_congr_right fun _ => ?_)
  unfold decode
  cases String.fromUTF8? bytes <;> simp

theorem Directory.assembles_iff {d : Directory} {path : String} {a : Assembly} :
    d.Assembles path a ↔
      ∃ source, d.read path >>= decode = .ok source ∧ assemble source = .ok a := by
  simp only [read_decode_eq_ok_iff]
  constructor
  · rintro ⟨bytes, source, hread, htext, ha⟩
    exact ⟨source, ⟨bytes, hread, htext⟩, ha⟩
  · rintro ⟨source, ⟨bytes, hread, htext⟩, ha⟩
    exact ⟨bytes, source, hread, htext, ha⟩

theorem Directory.Assembles.unique {d : Directory} {path : String} {a b : Assembly}
    (ha : d.Assembles path a) (hb : d.Assembles path b) : a = b := by
  obtain ⟨source, hread, ha⟩ := assembles_iff.1 ha
  obtain ⟨source', hread', hb⟩ := assembles_iff.1 hb
  obtain rfl := Except.ok.inj (hread.symm.trans hread')
  exact Except.ok.inj (ha.symm.trans hb)

def compile (d : Directory) (o : Options) : Outcome := .ofProgram (Desk.host.compile o) d

/-- The stages of a run on a directory: the first one that fails decides. -/
theorem compile_eq (d : Directory) (o : Options) :
    compile d o =
      match d.read o.input >>= decode with
      | .error f => ⟨1, opening o ++ readAlarm o f, d⟩
      | .ok source =>
        match Job.ofSource o source with
        | .error report => ⟨1, opening o ++ report, d⟩
        | .ok job =>
          match d.write o.output job.contents.toUTF8 with
          | .error f => ⟨1, opening o ++ job.report ++ writeAlarm o f, d⟩
          | .ok d => ⟨0, opening o ++ job.report ++ job.closing, d⟩ := by
  unfold compile Outcome.ofProgram Host.compile Desk.host
  cases hread : d.read o.input >>= decode with
  | error f => simp [hread]
  | ok source =>
    cases hjob : Job.ofSource o source with
    | error report => simp [hread, hjob]
    | ok job =>
      cases hwrite : d.write o.output job.contents.toByteArray with
      | error f => simp [hread, hjob, hwrite]
      | ok d' => simp [hread, hjob, hwrite]

/-- Assembling a file of a directory either puts the object into the output file, or fails and leaves
the directory as it is. -/
theorem compile_cases (d : Directory) (o : Options) :
    (∃ a file, d.Assembles o.input a ∧ d.destination o.output = .ok file ∧
        (compile d o).code = 0 ∧
        (compile d o).directory = d.put file (o.format.render a.object).toUTF8) ∨
      (compile d o).code = 1 ∧ (compile d o).directory = d ∧
        ∀ a file, d.Assembles o.input a → d.destination o.output ≠ .ok file := by
  simp only [Directory.assembles_iff]
  rw [compile_eq]
  cases hread : d.read o.input >>= decode with
  | error f => exact .inr ⟨rfl, rfl, fun a file ⟨_, hs, _⟩ => by cases hs⟩
  | ok source =>
    dsimp only
    unfold Job.ofSource
    cases ha : assemble source with
    | error l =>
      refine .inr ⟨rfl, rfl, fun a file ⟨source', hs, ha'⟩ => ?_⟩
      obtain rfl := Except.ok.inj hs
      cases ha.symm.trans ha'
    | ok a =>
      dsimp only
      unfold Directory.write
      cases hdest : d.destination o.output with
      | error f => exact .inr ⟨rfl, rfl, fun _ file _ he => by cases he⟩
      | ok file => exact .inl ⟨a, file, ⟨source, rfl, ha⟩, rfl, rfl, rfl⟩

/-- A run that is to assemble a file succeeds exactly if the input path leads to a file that is text
and assembled, and the output path to a file.  Then the output file holds the object in the format
that was asked for, all other files are as before, and the input counts as it was before the run.
Every other run leaves the directory as it is. -/
theorem run_writes_all_or_nothing (d : Directory) (args : List String) :
    (∀ o, Request.parse args = .compile o →
      ((run d args).code = 0 ↔
        ∃ a file, d.Assembles o.input a ∧ d.destination o.output = .ok file) ∧
      ∀ a file, d.Assembles o.input a → d.destination o.output = .ok file →
        ∃ contents, (o.format = .text → contents = a.object.toText) ∧
          (o.format = .yaml → contents = a.object.toYaml) ∧
          (run d args).directory.read o.output = .ok contents.toUTF8 ∧
          ∀ path, (run d args).directory.content? path =
            if path = file then some contents.toUTF8 else d.content? path) ∧
    ((∀ o, Request.parse args = .compile o → (run d args).code ≠ 0) →
      (run d args).directory = d) := by
  have hrun : ∀ o, Request.parse args = .compile o → run d args = compile d o := by
    intro o ho
    unfold run Host.run
    rw [ho]
    rfl
  refine ⟨fun o ho => ?_, fun hfail => ?_⟩
  · rw [hrun o ho]
    rcases compile_cases d o with ⟨a, file, ha, hfile, hcode, hdir⟩ | ⟨hcode, -, hnone⟩
    · refine ⟨iff_of_true hcode ⟨a, file, ha, hfile⟩, fun b file' hb hfile' => ?_⟩
      obtain rfl := hb.unique ha
      obtain rfl := Except.ok.inj (hfile.symm.trans hfile')
      have hwrite : d.write o.output (o.format.render b.object).toUTF8 =
          .ok (d.put file (o.format.render b.object).toUTF8) := by
        unfold Directory.write
        rw [hfile]
        rfl
      rw [hdir]
      refine ⟨o.format.render b.object, fun h => by rw [h]; rfl, fun h => by rw [h]; rfl, ?_, ?_⟩
      · exact Directory.read_write hwrite
      · exact fun path => Directory.content?_put d file path _
    · refine ⟨iff_of_false (by simp [hcode]) ?_, fun a file ha hfile => ?_⟩
      · rintro ⟨a, file, ha, hfile⟩
        exact hnone a file ha hfile
      · exact absurd hfile (hnone a file ha)
  · cases hp : Request.parse args with
    | compile o =>
      have hcode := hfail o hp
      rw [hrun o hp] at hcode ⊢
      rcases compile_cases d o with ⟨-, -, -, -, hzero, -⟩ | ⟨-, hdir, -⟩
      · exact absurd hzero hcode
      · exact hdir
    | help | version | misuse =>
      unfold run Host.run
      rw [hp]
      rfl

theorem run_writes_all_or_nothing_over_input :
    ∃ a, assemble ".text\niret\n" = .ok a ∧
      ((run (.ofFiles [("m.s", ".text\niret\n".toUTF8), ("n.s", .empty)])
          ["./m.s", "-o", "m.s", "-fyaml"]).code = 0 ∧
        (run (.ofFiles [("m.s", ".text\niret\n".toUTF8), ("n.s", .empty)])
          ["./m.s", "-o", "m.s", "-fyaml"]).directory.read "m.s" = .ok a.object.toYaml.toUTF8 ∧
        (run (.ofFiles [("m.s", ".text\niret\n".toUTF8), ("n.s", .empty)])
          ["./m.s", "-o", "m.s", "-fyaml"]).directory.content? ["n.s"] = some .empty) ∧
      (run (.ofFiles [("m.s", ".text\niret\n".toUTF8), ("n.s", .empty)])
          ["m.s", "-om.s"]).code = 0 ∧
        (run (.ofFiles [("m.s", ".text\niret\n".toUTF8), ("n.s", .empty)])
          ["m.s", "-om.s"]).directory.read "m.s" = .ok a.object.toText.toUTF8 := by
  obtain ⟨a, ha⟩ := Results.exists_of_isSome (x := assemble ".text\niret\n") (by decide +kernel)
  have hyaml : Request.parse ["./m.s", "-o", "m.s", "-fyaml"] =
      .compile ⟨"./m.s", "m.s", .yaml, false⟩ := by decide +kernel
  have htext : Request.parse ["m.s", "-om.s"] = .compile ⟨"m.s", "m.s", .text, false⟩ := by
    decide +kernel
  generalize hd : Directory.ofFiles [("m.s", ".text\niret\n".toUTF8), ("n.s", .empty)] = d
  have hassembles : ∀ path ∈ ["./m.s", "m.s"], d.Assembles path a := by
    subst hd
    intro path hpath
    rcases List.mem_pair.1 hpath with rfl | rfl <;> exact ⟨_, _, by rfl, by rfl, ha⟩
  have hfile : d.destination "m.s" = .ok ["m.s"] := by
    subst hd
    rfl
  obtain ⟨hcode, hdir⟩ := (run_writes_all_or_nothing d ["./m.s", "-o", "m.s", "-fyaml"]).1 _ hyaml
  obtain ⟨hcode', hdir'⟩ := (run_writes_all_or_nothing d ["m.s", "-om.s"]).1 _ htext
  obtain ⟨contents, -, hcontents, hread, hother⟩ := hdir a _ (hassembles _ (by simp)) hfile
  obtain ⟨contents', hcontents', -, hread', -⟩ := hdir' a _ (hassembles _ (by simp)) hfile
  obtain rfl := hcontents rfl
  obtain rfl := hcontents' rfl
  refine ⟨a, ha, ⟨hcode.2 ⟨a, _, hassembles _ (by simp), hfile⟩, hread, ?_⟩,
    hcode'.2 ⟨a, _, hassembles _ (by simp), hfile⟩, hread'⟩
  rw [hother, ← hd]
  rfl

end SS16.CommandLine
