import Calculator.CommandLine
import Calculator.Proofs.Token.Values

/-!
# The command line

Options that stand before a `--` may be given in any order, and what follows is a source text, whatever it
begins with, or the name of a file. The answer to a source text is printed, also if it is the message of an
error. It makes no difference whether the text is an argument or is found in a file. Only a file that holds
no text makes the program fail.
-/

namespace Calculator.CommandLine

-- What a run can be told on the command line.
inductive Setting
  | nestedFrames
  | strictArity
  | legacyTan
  | maxCallDepth (depth : Nat)

namespace Setting

def name : Setting → String
  | nestedFrames   => "nested-frames"
  | strictArity    => "strict-arity"
  | legacyTan      => "legacy-tan"
  | maxCallDepth _ => "max-call-depth"

def set (o : Options) : Setting → Options
  | nestedFrames       => { o with scoping := .nested }
  | strictArity        => { o with strictArity := true }
  | legacyTan          => { o with legacyTan := true }
  | maxCallDepth depth => { o with maxCallDepth := depth }

structure WritesNat (n : Nat) (text : List Char) : Prop where
  nonempty : text ≠ []
  digits   : ∀ c ∈ text, c ∈ digits
  value    : wholeValue text = n

-- A depth may be written with a plus sign.
inductive WritesDepth (depth : Nat) : List Char → Prop
  | unsigned {text} : WritesNat depth text → WritesDepth depth text
  | signed {text} : WritesNat depth text → WritesDepth depth ('+' :: text)

-- The arguments that make a setting. Depths have 64 bits.
inductive Written : Setting → List String → Prop
  | nestedFrames : Written nestedFrames ["--nested-frames"]
  | strictArity : Written strictArity ["--strict-arity"]
  | legacyTan : Written legacyTan ["--legacy-tan"]
  | depth {text depth} :
    WritesDepth depth text.toList → depth < 2 ^ 64 →
    Written (maxCallDepth depth) ["--max-call-depth", text]
  | depthAfterEquals {text depth} :
    WritesDepth depth text.toList → depth < 2 ^ 64 →
    Written (maxCallDepth depth) ["--max-call-depth=" ++ text]

end Setting

def chosen (settings : List Setting) : Options := settings.foldl Setting.set {}

-- What a name stands for in a file system, if it stands for anything.
inductive Entry
  | file (contents : ByteArray)
  | directory

abbrev Files := String → Option Entry

-- Only files can be read.
def Files.contents? (files : Files) (name : String) : Option ByteArray :=
  match files name with
  | some (.file contents) => some contents
  | _                     => none

-- The name is not that of a file that holds a text.
inductive Files.NoText (files : Files) (name : String) : Prop
  | missing : files name = none → NoText files name
  | directory : files name = some .directory → NoText files name
  | notUtf8 {contents} :
    files name = some (.file contents) → (∀ text : String, contents ≠ text.toUTF8) → NoText files name

variable {a : Arguments} {s s' : Setting} {settings : List Setting} {f : Flag} {text : List Char}
  {depth : Nat} {rest words : List String} {argument : String}

namespace Arguments

def give (a : Arguments) : Setting → Arguments
  | .nestedFrames       => { a with flags := .nestedFrames :: a.flags }
  | .strictArity        => { a with flags := .strictArity :: a.flags }
  | .legacyTan          => { a with flags := .legacyTan :: a.flags }
  | .maxCallDepth depth => { a with maxCallDepth := some depth }

-- The setting has not been made yet.
def Lacks (a : Arguments) : Setting → Prop
  | .nestedFrames   => .nestedFrames ∉ a.flags
  | .strictArity    => .strictArity ∉ a.flags
  | .legacyTan      => .legacyTan ∉ a.flags
  | .maxCallDepth _ => a.maxCallDepth = none

theorem lacks_give (h : a.Lacks s') (hn : s.name ≠ s'.name) : (a.give s).Lacks s' := by
  cases s <;> cases s' <;> simp_all [Lacks, give, Setting.name]

@[simp]
theorem options_give : (a.give s).options = s.set a.options := by
  cases s
  case maxCallDepth => rfl
  all_goals simp [options, give, Setting.set]

@[simp]
theorem contents_give : (a.give s).contents = a.contents := by
  cases s <;> rfl

@[simp]
theorem file_mem_give : .file ∈ (a.give s).flags ↔ .file ∈ a.flags := by
  cases s <;> simp [give]

theorem addFlag_eq (h : f ∉ a.flags) : a.addFlag f = .ok { a with flags := f :: a.flags } := if_neg h

theorem setDepth_eq (hd : depth? text = some depth) (ha : a.maxCallDepth = none) :
    a.setDepth text = .ok { a with maxCallDepth := some depth } := by
  rw [setDepth, hd, ha]

def giveAll (a : Arguments) (settings : List Setting) : Arguments := settings.foldl give a

theorem lacks_giveAll (h : a.Lacks s) (hn : s.name ∉ settings.map Setting.name) :
    (a.giveAll settings).Lacks s := by
  induction settings generalizing a
  case nil => exact h
  case cons hi =>
    rw [List.map_cons, List.mem_cons, not_or] at hn
    exact hi (lacks_give h (Ne.symm hn.left)) hn.right

theorem options_giveAll : (a.giveAll settings).options = settings.foldl Setting.set a.options :=
  (List.foldl_hom options fun _ _ => options_give.symm).symm

theorem contents_giveAll : (a.giveAll settings).contents = a.contents := by
  induction settings generalizing a
  case nil     => rfl
  case cons hi => exact hi.trans contents_give

theorem file_mem_giveAll : .file ∈ (a.giveAll settings).flags ↔ .file ∈ a.flags := by
  induction settings generalizing a
  case nil     => rfl
  case cons hi => exact hi.trans file_mem_give

-- The arguments read a file.
def withFile (a : Arguments) : Arguments := { a with flags := .file :: a.flags }

theorem lacks_withFile (h : a.Lacks s) : a.withFile.Lacks s := by
  cases s <;> simpa [withFile, Lacks] using h

theorem options_withFile : a.withFile.options = a.options := by
  simp [withFile, options]

theorem lacks_empty : ({} : Arguments).Lacks s := by
  cases s <;> simp [Lacks]

theorem options_of_empty : (({} : Arguments).giveAll settings).options = chosen settings := options_giveAll

end Arguments

theorem readFrom_flag (h : f ∉ a.flags) :
    readFrom a (("--" ++ f.name) :: rest) = readFrom { a with flags := f :: a.flags } rest := by
  have hf : ("--" ++ f.name).toList = '-' :: '-' :: f.name.toList := by simp
  cases f
  all_goals
    rw [readFrom, hf]
    simp [Flag.name, Arguments.addOption, Flag.ofName?, Arguments.addFlag_eq h, bind, Except.bind]

theorem readFrom_letter (h : .file ∉ a.flags) :
    readFrom a ("-f" :: rest) = readFrom { a with flags := .file :: a.flags } rest := by
  rw [readFrom]
  simp [Arguments.addLetters, Arguments.addFlag_eq h, bind, Except.bind]

theorem Setting.WritesNat.value?_eq (h : WritesNat depth text) (hd : depth < 2 ^ 64) :
    depth?.value? text = some depth := by
  have hv : Number.ofDigits text = depth := by
    exact_mod_cast (wholeValue_eq h.digits).symm.trans h.value
  have ha : text.all Char.isDigit := List.all_eq_true.mpr fun c hc => isDigit_iff.mpr (h.digits c hc)
  rw [depth?.value?, hv]
  exact if_pos ⟨h.nonempty, ha, hd⟩

theorem Setting.WritesDepth.depth?_eq (h : WritesDepth depth text) (hd : depth < 2 ^ 64) :
    depth? text = some depth := by
  cases h
  case signed h => exact h.value?_eq hd
  case unsigned h =>
    unfold depth?
    split
    case _     => exact absurd (h.digits '+' List.mem_cons_self) (by decide)
    case _ _ _ => exact h.value?_eq hd

theorem not_isOption (h : depth? text = some depth) : isOption text = false := by
  unfold isOption
  split
  case _ => simp [depth?, depth?.value?] at h
  case _ => rfl

theorem readFrom_depth (hd : depth? argument.toList = some depth) (ha : a.maxCallDepth = none) :
    readFrom a ("--max-call-depth" :: argument :: rest) =
      readFrom { a with maxCallDepth := some depth } rest := by
  rw [readFrom]
  simp [not_isOption hd, Arguments.setDepth_eq hd ha, bind, Except.bind]

theorem readFrom_depth_after_equals (hd : depth? argument.toList = some depth)
    (ha : a.maxCallDepth = none) :
    readFrom a (("--max-call-depth=" ++ argument) :: rest) =
      readFrom { a with maxCallDepth := some depth } rest := by
  rw [readFrom]
  simp [Arguments.setDepth_eq hd ha, bind, Except.bind]

theorem readFrom_written (h : s.Written words) (ha : a.Lacks s) :
    readFrom a (words ++ rest) = readFrom (a.give s) rest := by
  cases h
  case nestedFrames           => exact readFrom_flag (f := .nestedFrames) ha
  case strictArity            => exact readFrom_flag (f := .strictArity) ha
  case legacyTan              => exact readFrom_flag (f := .legacyTan) ha
  case depth hd hl            => exact readFrom_depth (hd.depth?_eq hl) ha
  case depthAfterEquals hd hl => exact readFrom_depth_after_equals (hd.depth?_eq hl) ha

-- The settings are made one after the other. One that is still to come has not been made by another.
theorem readFrom_settings {words : List (List String)} (hw : List.Forall₂ Setting.Written settings words)
    (hn : (settings.map Setting.name).Nodup) (ha : ∀ s ∈ settings, a.Lacks s) :
    readFrom a (words.flatten ++ rest) = readFrom (a.giveAll settings) rest := by
  induction hw generalizing a
  case nil => rfl
  case cons s _ settings _ h _ hi =>
    rw [List.map_cons, List.nodup_cons] at hn
    rw [List.forall_mem_cons] at ha
    have hs : ∀ s' ∈ settings, (a.give s).Lacks s' := fun s' hm =>
      Arguments.lacks_give (ha.right s' hm) fun he => hn.left (he ▸ List.mem_map_of_mem hm)
    rw [List.flatten_cons, List.append_assoc, readFrom_written h ha.left, hi hn.right hs]
    rfl

theorem readFrom_contents (h : a.contents = none) :
    readFrom a ["--", argument] = .ok (.evaluate argument (.file ∈ a.flags) a.options) := by
  have ho : { a with contents := some argument }.options = a.options := rfl
  rw [readFrom]
  simp [Arguments.addContents, h, Arguments.request, bind, Except.bind, pure, Except.pure, ho]

theorem readFrom_file (hf : argument = "-f" ∨ argument = "--file") (h : .file ∉ a.flags) :
    readFrom a (argument :: rest) = readFrom a.withFile rest := by
  obtain rfl | rfl := hf
  case inl => exact readFrom_letter h
  case inr => exact readFrom_flag h

theorem fromUTF8?_toUTF8 (text : String) : String.fromUTF8? text.toUTF8 = some text :=
  dif_pos text.isValidUTF8

theorem Files.NoText.bind_eq {files : Files} {name : String} (h : files.NoText name) :
    (files.contents? name).bind String.fromUTF8? = none := by
  cases h
  case missing h => rw [contents?, h]; rfl
  case directory h => rw [contents?, h]; rfl
  case notUtf8 contents h ht =>
    rw [contents?, h]
    refine dif_neg fun hv => ?_
    exact ht (.fromUTF8 contents hv) rfl

section

variable {m : Type → Type} [Monad m] {contents? : String → m (Option ByteArray)} {draws : Draws}
  {args : List String} {options : Options} {source name : String} {contents : Option ByteArray}

theorem respond_source (h : read args = .ok (.evaluate source false options)) :
    respond contents? draws args = pure ⟨0, answer source options draws ++ "\n", ""⟩ := by
  simp only [respond, h]
  rfl

theorem respond_file [LawfulMonad m] (h : read args = .ok (.evaluate name true options))
    (hr : contents? name = pure contents) (ht : contents.bind String.fromUTF8? = some source) :
    respond contents? draws args = pure ⟨0, answer source options draws ++ "\n", ""⟩ := by
  simp only [respond, h, hr, pure_bind, ht]
  rfl

theorem respond_no_text [LawfulMonad m] (h : read args = .ok (.evaluate name true options))
    (hr : contents? name = pure contents) (ht : contents.bind String.fromUTF8? = none) :
    respond contents? draws args =
      pure ⟨1, "", "Failed to read the input file '" ++ name ++
        "'. Perhaps this file does not exist?\n"⟩ := by
  simp only [respond, h, hr, pure_bind, ht]

end

section

variable {before after : List Setting} {words₁ words₂ : List (List String)} {file source : String}
  (hb : List.Forall₂ Setting.Written before words₁) (ha : List.Forall₂ Setting.Written after words₂)
  (hn : ((before ++ after).map Setting.name).Nodup)

include hb ha hn

theorem read_source :
    read (words₁.flatten ++ words₂.flatten ++ ["--", source]) =
      .ok (.evaluate source false (chosen (before ++ after))) := by
  have hw : List.Forall₂ Setting.Written (before ++ after) (words₁ ++ words₂) := List.rel_append hb ha
  have hf : .file ∉ (({} : Arguments).giveAll (before ++ after)).flags := by simp [Arguments.file_mem_giveAll]
  rw [read, ← List.flatten_append, readFrom_settings hw hn fun _ _ => Arguments.lacks_empty,
    readFrom_contents Arguments.contents_giveAll, Arguments.options_of_empty, decide_eq_false hf]

-- The settings after the option for the file have been made neither by it nor by those before it.
theorem read_file (hf : file = "-f" ∨ file = "--file") :
    read (words₁.flatten ++ file :: words₂.flatten ++ ["--", name]) =
      .ok (.evaluate name true (chosen (before ++ after))) := by
  rw [List.map_append, List.nodup_append] at hn
  obtain ⟨hb', ha', hd⟩ := hn
  let a₁ := ({} : Arguments).giveAll before
  have h₁ : .file ∉ a₁.flags := by simp [a₁, Arguments.file_mem_giveAll]
  have hl : ∀ s ∈ after, a₁.withFile.Lacks s := fun s hs =>
    Arguments.lacks_withFile <| Arguments.lacks_giveAll Arguments.lacks_empty fun hm =>
      hd _ hm _ (List.mem_map_of_mem hs) rfl
  have h₂ : .file ∈ (a₁.withFile.giveAll after).flags :=
    Arguments.file_mem_giveAll.mpr List.mem_cons_self
  have ho : (a₁.withFile.giveAll after).options = chosen (before ++ after) := by
    rw [Arguments.options_giveAll, Arguments.options_withFile, Arguments.options_of_empty, chosen, chosen,
      List.foldl_append]
  have hc : (a₁.withFile.giveAll after).contents = none :=
    Arguments.contents_giveAll.trans Arguments.contents_giveAll
  rw [read, List.append_assoc, List.cons_append, readFrom_settings hb hb' fun _ _ => Arguments.lacks_empty,
    readFrom_file hf h₁, readFrom_settings ha ha' hl, readFrom_contents hc, ho, decide_eq_true h₂]

-- A source text gets the same answer whether it is given as it is or in a file, and a file that holds none is
-- the only thing that can be wrong.
theorem source_given_or_in_file {m : Type → Type} [Monad m] [LawfulMonad m]
    {contents? : String → m (Option ByteArray)} {files : Files}
    (hr : ∀ name, contents? name = pure (files.contents? name)) (draws : Draws)
    (hf : file = "-f" ∨ file = "--file") :
    let options := chosen (before ++ after)
    let given (argument : String) :=
      respond contents? draws (words₁.flatten ++ words₂.flatten ++ ["--", argument])
    let inFile (argument : String) :=
      respond contents? draws (words₁.flatten ++ file :: words₂.flatten ++ ["--", argument])
    (∀ source, given source = pure ⟨0, answer source options draws ++ "\n", ""⟩) ∧
    (∀ source name, files name = some (.file source.toUTF8) → inFile name = given source) ∧
    ∀ name, files.NoText name → inFile name =
      pure ⟨1, "", "Failed to read the input file '" ++ name ++
        "'. Perhaps this file does not exist?\n"⟩ := by
  intro options given inFile
  have hg (source : String) : given source = pure ⟨0, answer source options draws ++ "\n", ""⟩ :=
    respond_source (read_source hb ha hn)
  refine ⟨hg, fun source name h => ?_, fun name h => ?_⟩
  case refine_1 =>
    have ht : (files.contents? name).bind String.fromUTF8? = some source := by
      rw [Files.contents?, h]
      exact fromUTF8?_toUTF8 source
    rw [hg]
    exact respond_file (read_file hb ha hn hf) (hr name) ht
  case refine_2 => exact respond_no_text (read_file hb ha hn hf) (hr name) h.bind_eq

end

-- `-x`, whose variable is unknown, and a file with `tan(0)`. The depth is written with a sign and a zero.
theorem source_given_or_in_file_after_depth :
    let files : Files := fun name =>
      if name = "program" then some (.file "tan(0)".toUTF8)
      else if name = "src" then some .directory
      else none
    let before := [Setting.maxCallDepth 7]
    let after := [Setting.legacyTan]
    let contents? : String → Id (Option ByteArray) := fun name => pure (files.contents? name)
    let respond := respond contents? (.ofSeed 0)
    List.Forall₂ Setting.Written before [["--max-call-depth", "+07"]] ∧
      List.Forall₂ Setting.Written after [["--legacy-tan"]] ∧
      ((before ++ after).map Setting.name).Nodup ∧
      respond ["--max-call-depth", "+07", "--legacy-tan", "--", "-x"] =
        ⟨0, "Error on line 1: x is undefined.\n", ""⟩ ∧
      respond ["--max-call-depth", "+07", "-f", "--legacy-tan", "--", "program"] =
        respond ["--max-call-depth", "+07", "--legacy-tan", "--", "tan(0)"] ∧
      respond ["--max-call-depth", "+07", "-f", "--legacy-tan", "--", "src"] =
        ⟨1, "", "Failed to read the input file 'src'. Perhaps this file does not exist?\n"⟩ := by
  intro files before after contents? respond
  have hd : Setting.WritesDepth 7 "+07".toList := by
    have ht : "+07".toList = ['+', '0', '7'] := rfl
    rw [ht]
    exact .signed ⟨by decide, by simp [digits], by decide +kernel⟩
  have hb : List.Forall₂ Setting.Written before [["--max-call-depth", "+07"]] :=
    .cons (.depth hd (by norm_num)) .nil
  have ha : List.Forall₂ Setting.Written after [["--legacy-tan"]] := .cons .legacyTan .nil
  have hn : ((before ++ after).map Setting.name).Nodup := by decide
  have hf : ∀ name, contents? name = pure (files.contents? name) := fun _ => rfl
  obtain ⟨given, inFile, noText⟩ := source_given_or_in_file hb ha hn hf (.ofSeed 0) (.inl rfl)
  have hp : program "-x" = .ok [.negate (.name "x" 1) 1] := by cbv
  have hr : run "-x" (chosen (before ++ after)) (.ofSeed 0) = .error (.eval ⟨.undefined "x", 1⟩) := by
    rw [run, Context.run, hp]
    rfl
  have hx : answer "-x" (chosen (before ++ after)) (.ofSeed 0) ++ "\n" =
      "Error on line 1: x is undefined.\n" := by
    rw [answer, hr]
    decide
  have hs : "Failed to read the input file '" ++ "src" ++ "'. Perhaps this file does not exist?\n" =
      "Failed to read the input file 'src'. Perhaps this file does not exist?\n" := by simp
  refine ⟨hb, ha, hn, ?_, inFile "tan(0)" "program" (if_pos rfl), ?_⟩
  case refine_1 => exact hx ▸ given "-x"
  case refine_2 => exact hs ▸ noText "src" (.directory rfl)

end Calculator.CommandLine
