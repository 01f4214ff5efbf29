import LearnC.Machine.Getopt
import LearnC.Machine.Strings

/-! `proc_paras` of `getopt.c`: the command lines that it takes, against a grammar of their
words. -/

namespace LearnC.Paras.Short

open Getopt

structure CmdParas where
  ver : Int
  outputFname : Option Word
deriving DecidableEq

/-- How `proc_paras` ends: in `print_usage`, in `abort`, at a null pointer that it gives to
`atoi`, or with the fields. -/
inductive Outcome where
  | usage (code : Nat)
  | abort
  | fault
  | done (paras : CmdParas)
deriving DecidableEq

def optstr : List UInt8 := chars "hv:o:"

/-- `getopt` has no long options. To it the word of one is the short option `-`, which is not
there either: the first return is a `?`, behind which nothing more is asked for. -/
def options : Options := ⟨optstr, []⟩

/-- The `switch`: an end, or the fields as they are then. -/
def handle (paras : CmdParas) (r : Ret) : Except Outcome CmdParas :=
  if r.opt = 104 then .error (.usage 0)
  else if r.opt = 118 then
    match r.optarg with
    | some text => .ok { paras with ver := atoi text }
    | none => .error .fault
  else if r.opt = 111 then .ok { paras with outputFname := r.optarg }
  else if r.opt = 63 then .error (.usage 0)
  else .error .abort

/-- The loop over the returns of `getopt`. -/
def handleAll (paras : CmdParas) : List Ret → Outcome
  | [] => .done paras
  | r :: rets =>
    match handle paras r with
    | .error outcome => outcome
    | .ok paras => handleAll paras rets

/-- `proc_paras` as `main` calls it; `words` are those behind the name of the program. -/
def procParas (words : List Word) : Outcome := handleAll ⟨0, none⟩ (results options words).1

/-! ## The grammar -/

inductive Setting where
  | ver
  | output

def Setting.opt : Setting → UInt8
  | ver => 118
  | output => 111

def Setting.apply (paras : CmdParas) (text : Word) : Setting → CmdParas
  | ver => { paras with ver := atoi text }
  | output => { paras with outputFname := some text }

/-- A setting with its text in the same word or in the next one, which may be any word, or an
operand. -/
inductive Item where
  | joined (s : Setting) (text : Word) (ne : text ≠ [])
  | apart (s : Setting) (text : Word)
  | operand (w : Word) (plain : ∀ c rest, w ≠ 45 :: c :: rest)

def Item.words : Item → List Word
  | joined s text _ => [45 :: s.opt :: text]
  | apart s text => [[45, s.opt], text]
  | operand w _ => [w]

def Item.apply (paras : CmdParas) : Item → CmdParas
  | joined s text _ => s.apply paras text
  | apart s text => s.apply paras text
  | operand _ _ => paras

def dashes : Word := [45, 45]

/-- The items of a command line, up to its end or to a `--`. -/
inductive Spells : List Word → List Item → Prop
  | nil : Spells [] []
  | stop (rest : List Word) : Spells (dashes :: rest) []
  | item {words : List Word} {items : List Item} (i : Item) (more : Spells words items) :
      Spells (i.words ++ words) (i :: items)

variable {words rest rest' : List Word} {items items' : List Item} {paras : CmdParas}
  {w text : Word} {r : Ret} {i j : Item}

/-! ## The words -/

theorem Setting.opt_inj {s s' : Setting} (same : s.opt = s'.opt) : s = s' := by
  cases s <;> cases s' <;> first | rfl | cases same

theorem shortArg_optstr (c : UInt8) : shortArg c optstr =
    if c = 104 then some false else if c = 118 ∨ c = 111 then some true else none :=
  byte_forall (P := fun c => shortArg c optstr =
    if c = 104 then some false else if c = 118 ∨ c = 111 then some true else none)
    (by decide +kernel) c

theorem kind_operand (plain : ∀ c rest, w ≠ 45 :: c :: rest) : kind options w = .operand := by
  unfold kind
  split
  · exact absurd rfl (plain _ _)
  · exact absurd rfl (plain _ _)
  · rfl

theorem kind_setting (s : Setting) (text : Word) : kind options (45 :: s.opt :: text) =
    if text = [] then .options [] (some ⟨s.opt, none, none⟩)
    else .options [⟨s.opt, some text, none⟩] none := by
  have takes : shortArg s.opt optstr = some true := by
    rw [shortArg_optstr]
    cases s <;> rfl
  have short : kind options (45 :: s.opt :: text) =
      .options (shortWord optstr (s.opt :: text)).1 (shortWord optstr (s.opt :: text)).2 := by
    cases s <;> rfl
  rw [short, shortWord, takes]
  by_cases last : text = [] <;> simp [last]

theorem kind_joined (s : Setting) (ne : text ≠ []) :
    kind options (45 :: s.opt :: text) = .options [⟨s.opt, some text, none⟩] none := by
  rw [kind_setting, if_neg ne]

theorem kind_apart (s : Setting) :
    kind options [45, s.opt] = .options [] (some ⟨s.opt, none, none⟩) := by
  rw [kind_setting, if_pos rfl]

/-- What the words of the program can be. -/
inductive Form : Word → Kind → Prop
  | operand {w : Word} (plain : ∀ c rest, w ≠ 45 :: c :: rest) : Form w .operand
  | stop : Form dashes .stop
  | joined (s : Setting) {text : Word} (ne : text ≠ []) :
      Form (45 :: s.opt :: text) (.options [⟨s.opt, some text, none⟩] none)
  | apart (s : Setting) : Form [45, s.opt] (.options [] (some ⟨s.opt, none, none⟩))
  | refused {w : Word} {r : Ret} {rets : List Ret} {wants : Option Ret}
      (usage : ∀ paras, handle paras r = .error (.usage 0)) : Form w (.options (r :: rets) wants)

theorem form_short (c : UInt8) (text : Word) (dash : c ≠ 45) :
    Form (45 :: c :: text) (kind options (45 :: c :: text)) := by
  by_cases setting : ∃ s : Setting, s.opt = c
  · obtain ⟨s, rfl⟩ := setting
    by_cases last : text = []
    · subst last
      rw [kind_apart]
      exact .apart s
    · rw [kind_joined s last]
      exact .joined s last
  · have not : ¬ (c = 118 ∨ c = 111) := by
      rintro (rfl | rfl)
      · exact setting ⟨.ver, rfl⟩
      · exact setting ⟨.output, rfl⟩
    have short : kind options (45 :: c :: text) =
        .options (shortWord optstr (c :: text)).1 (shortWord optstr (c :: text)).2 := by
      unfold kind
      split
      · rename_i eq
        cases eq
        exact absurd rfl dash
      · rename_i eq
        cases eq
        rfl
      · rename_i other
        exact absurd rfl (other c text)
    rw [short, shortWord, shortArg_optstr, if_neg not]
    by_cases help : c = 104
    · subst help
      exact .refused fun _ => rfl
    · rw [if_neg help]
      exact .refused fun _ => rfl

theorem form (w : Word) : Form w (kind options w) := by
  by_cases option : ∃ c text, w = 45 :: c :: text
  · obtain ⟨c, text, rfl⟩ := option
    by_cases dash : c = 45
    · subst dash
      by_cases last : text = []
      · subst last
        exact .stop
      · have long : kind options (45 :: 45 :: text) = .options [bad] none := by
          simp only [kind, last, ↓reduceIte]
          rfl
        rw [long]
        exact .refused fun _ => rfl
    · exact form_short c text dash
  · have plain (c : UInt8) (text : Word) : w ≠ 45 :: c :: text := fun eq => option ⟨c, text, eq⟩
    rw [kind_operand plain]
    exact .operand plain

theorem Form.of_kind {k : Kind} (is : kind options w = k) : Form w k := is ▸ form w

/-! ## The command lines -/

theorem handle_setting (s : Setting) (paras : CmdParas) (text : Word) (idx : Option Nat) :
    handle paras ⟨s.opt, some text, idx⟩ = .ok (s.apply paras text) := by
  cases s <;> rfl

/-- A command line of the grammar gives its settings, in their order. -/
theorem Spells.run (spells : Spells words items) (paras : CmdParas) :
    handleAll paras (results options words).1 = .done (items.foldl Item.apply paras) := by
  induction spells generalizing paras with
  | nil => rfl
  | stop rest => rfl
  | item i more ih =>
    cases i with
    | operand w plain =>
      simp only [Item.words, List.singleton_append]
      rw [results_operand (kind_operand plain)]
      exact ih paras
    | joined s text ne =>
      simp only [Item.words, List.singleton_append]
      rw [results_options (kind_joined s ne), List.singleton_append, handleAll, handle_setting]
      exact ih _
    | apart s text =>
      simp only [Item.words, List.cons_append, List.nil_append]
      rw [results_wants (kind_apart s), List.nil_append, handleAll, handle_setting]
      exact ih _

theorem refused_run (usage : ∀ paras, handle paras r = .error (.usage 0)) (rets : List Ret) :
    handleAll paras (r :: rets) = .usage 0 := by
  rw [handleAll, usage]

/-- What is not of the grammar comes to the usage text. -/
theorem spelled_or_usage (words : List Word) (paras : CmdParas) : (∃ items, Spells words items) ∨
    handleAll paras (results options words).1 = .usage 0 := by
  fun_induction results options words generalizing paras with
  | case1 => exact .inl ⟨_, .nil⟩
  | case2 w words is ih =>
    cases Form.of_kind is with
    | operand plain =>
      rcases ih paras with ⟨items, more⟩ | usage
      · exact .inl ⟨_, .item (.operand w plain) more⟩
      · exact .inr usage
  | case3 w words is =>
    cases Form.of_kind is with
    | stop => exact .inl ⟨_, .stop words⟩
  | case4 w words rets is ih =>
    cases Form.of_kind is with
    | joined s ne =>
      rw [List.singleton_append, handleAll, handle_setting]
      rcases ih (s.apply paras _) with ⟨items, more⟩ | usage
      · exact .inl ⟨_, .item (.joined s _ ne) more⟩
      · exact .inr usage
    | refused usage => exact .inr (refused_run usage _)
  | case5 w rets r is =>
    cases Form.of_kind is with
    | apart s => exact .inr rfl
    | refused usage => exact .inr (refused_run usage _)
  | case6 w rets r is arg words ih =>
    cases Form.of_kind is with
    | apart s =>
      rw [List.nil_append, handleAll, handle_setting]
      rcases ih (s.apply paras arg) with ⟨items, more⟩ | usage
      · exact .inl ⟨_, .item (.apart s arg) more⟩
      · exact .inr usage
    | refused usage => exact .inr (refused_run usage _)

/-! ## One reading -/

/-- The first item is the one that the first word begins. -/
theorem Item.words_inj (same : i.words ++ rest = j.words ++ rest') : i = j ∧ rest = rest' := by
  cases i with
  | operand w plain =>
    cases j with
    | operand w' plain' =>
      obtain ⟨rfl, rfl⟩ := List.cons.inj same
      exact ⟨rfl, rfl⟩
    | joined s text ne => exact absurd (List.cons.inj same).1 (plain _ _)
    | apart s text => exact absurd (List.cons.inj same).1 (plain _ _)
  | joined s text ne =>
    cases j with
    | operand w' plain' => exact absurd (List.cons.inj same).1.symm (plain' _ _)
    | joined s' text' ne' =>
      obtain ⟨words, rfl⟩ := List.cons.inj same
      simp only [List.cons.injEq, true_and] at words
      obtain rfl := Setting.opt_inj words.1
      obtain rfl := words.2
      exact ⟨rfl, rfl⟩
    | apart s' text' =>
      have words := (List.cons.inj same).1
      simp only [List.cons.injEq, true_and] at words
      exact absurd words.2 ne
  | apart s text =>
    cases j with
    | operand w' plain' => exact absurd (List.cons.inj same).1.symm (plain' _ _)
    | joined s' text' ne' =>
      have words := (List.cons.inj same).1
      simp only [List.cons.injEq, true_and] at words
      exact absurd words.2.symm ne'
    | apart s' text' =>
      simp only [Item.words, List.cons_append, List.nil_append, List.cons.injEq, true_and,
        and_true] at same
      obtain ⟨opt, rfl, rfl⟩ := same
      obtain rfl := Setting.opt_inj opt
      exact ⟨rfl, rfl⟩

theorem Item.not_dashes : i.words ++ rest ≠ dashes :: rest' := by
  intro same
  cases i with
  | operand w plain => exact plain _ _ (List.cons.inj same).1
  | joined s text ne =>
    have words := (List.cons.inj same).1
    cases s <;> cases words
  | apart s text =>
    have words := (List.cons.inj same).1
    cases s <;> cases words

theorem Item.words_ne_nil (i : Item) : i.words ++ rest ≠ [] := by
  cases i <;> exact List.cons_ne_nil _ _

/-- The grammar is not ambiguous. -/
theorem Spells.unique (spells : Spells words items) (spells' : Spells words items') :
    items = items' := by
  induction spells generalizing items' with
  | nil =>
    generalize eq : ([] : List Word) = words at spells'
    cases spells' with
    | nil => rfl
    | stop rest => cases eq
    | item j more => exact absurd eq.symm j.words_ne_nil
  | stop rest =>
    generalize eq : dashes :: rest = words at spells'
    cases spells' with
    | nil => rfl
    | stop rest => rfl
    | item j more => exact absurd eq.symm Item.not_dashes
  | @item words items i more ih =>
    generalize eq : i.words ++ words = all at spells'
    cases spells' with
    | nil => exact absurd eq i.words_ne_nil
    | stop rest => exact absurd eq Item.not_dashes
    | item j more' =>
      obtain ⟨rfl, rfl⟩ := Item.words_inj eq
      rw [ih more']

/-- `proc_paras` takes a command line if and only if it is one of the grammar, and then as its one
reading says: of each setting the last one counts, wherever operands stand, and nothing behind
`--`. Every other command line comes to the usage text, none to `abort` or to a null pointer. -/
theorem command_line_read (words : List Word) :
    (∀ paras, procParas words = .done paras ↔
      ∃ items, Spells words items ∧ paras = items.foldl Item.apply ⟨0, none⟩) ∧
    ((¬ ∃ items, Spells words items) → procParas words = .usage 0) ∧
    ∀ items items', Spells words items → Spells words items' → items = items' := by
  refine ⟨fun paras => ⟨fun done => ?_, ?_⟩, fun not => ?_, fun _ _ => Spells.unique⟩
  · rcases spelled_or_usage words ⟨0, none⟩ with ⟨items, spells⟩ | usage
    · refine ⟨items, spells, ?_⟩
      exact (Outcome.done.inj ((spells.run _).symm.trans done)).symm
    · cases usage.symm.trans done
  · rintro ⟨items, spells, rfl⟩
    exact spells.run _
  · exact (spelled_or_usage words ⟨0, none⟩).resolve_left not

/-- The usage that the source gives. -/
example : procParas [chars "-v", chars "12", chars "-o", chars "moutput.txt"] =
    .done ⟨12, some (chars "moutput.txt")⟩ := by
  decide +kernel

end LearnC.Paras.Short
