import LearnC.Machine.Run
import LearnC.Net.Tcp

/-! `5.net/tcp`: `client.c` sends the words that are typed and prints what comes back, and
`server.c` prints what arrives and sends it back. The network decides how much a `recv` gets. -/

namespace LearnC.Net.Echo

open Tcp (bufsiz)

def welcome : List UInt8 := chars "Welcome to my server\n"

/-- What `scanf` reads and the client sends: it fits `buf` with its zero byte, and it is not
`quit`. -/
structure Word where
  text : List UInt8
  nonempty : text ≠ []
  short : text.length < bufsiz
  clean : 0 ∉ text
  ne : text ≠ chars "quit"

/-- Where the client stands: before the first `recv`; before `scanf`, with the words that are
still typed before `quit`; before the `recv` of the loop; behind `close`. -/
inductive Client where
  | greeting (input : List Word)
  | asking (input : List Word)
  | waiting (input : List Word)
  | closed

/-- Where the server stands: before the first `send`; before `recv`; before `send`, with what is
in the buffer; behind the loop, with what it could not send. -/
inductive Server where
  | greeting
  | receiving
  | sending (got : List UInt8)
  | done (unsent : List UInt8)

/-- Both sides, what is on its way to each, and what each has printed, call by call. -/
structure Sys where
  client : Client
  server : Server
  up : List UInt8
  down : List UInt8
  echoes : List (List UInt8)
  log : List (List UInt8)

/-- A step of one side; a `recv` gets `bytes`. The network may drop a connection whose other
side has closed it. -/
inductive Act where
  | client (bytes : Nat)
  | server (bytes : Nat)
  | reset

/-- `%s` prints up to the zero behind the text. -/
def shown (got : List UInt8) : List UInt8 := got.takeWhile (· ≠ 0)

/-- A `recv` that does not fill the buffer, so that there is room for the zero. -/
def Gets (bytes : Nat) (stream : List UInt8) : Prop :=
  0 < bytes ∧ bytes ≤ stream.length ∧ bytes < bufsiz

instance (bytes : Nat) (stream : List UInt8) : Decidable (Gets bytes stream) :=
  inferInstanceAs (Decidable (_ ∧ _ ∧ _))

namespace Sys

/-- The client has got what it asked for. -/
def hear (σ : Sys) (bytes : Nat) (input : List Word) : Sys :=
  { σ with
    client := .asking input
    down := σ.down.drop bytes
    echoes := σ.echoes ++ [shown (σ.down.take bytes)] }

def stepClient (σ : Sys) (bytes : Nat) : Option Sys :=
  match σ.client with
  | .greeting input => if Gets bytes σ.down then some (σ.hear bytes input) else none
  | .asking (word :: input) => some { σ with client := .waiting input, up := σ.up ++ word.text }
  | .asking [] => some { σ with client := .closed }
  | .waiting input => if Gets bytes σ.down then some (σ.hear bytes input) else none
  | .closed => none

/-- `recv` returns 0 when the client has closed and nothing is left. -/
def stepServer (σ : Sys) (bytes : Nat) : Option Sys :=
  match σ.server with
  | .greeting => some { σ with server := .receiving, down := σ.down ++ welcome }
  | .receiving =>
    match σ.client, σ.up with
    | .closed, [] => some { σ with server := .done [] }
    | _, _ =>
      if Gets bytes σ.up then
        some { σ with
          server := .sending (σ.up.take bytes)
          up := σ.up.drop bytes
          log := σ.log ++ [shown (σ.up.take bytes)] }
      else none
  | .sending got => some { σ with server := .receiving, down := σ.down ++ got }
  | .done _ => none

/-- `send` fails. -/
def fail (σ : Sys) : Option Sys :=
  match σ.client, σ.server with
  | .closed, .sending got => some { σ with server := .done got }
  | _, _ => none

def step (σ : Sys) : Act → Option Sys
  | .client bytes => σ.stepClient bytes
  | .server bytes => σ.stepServer bytes
  | .reset => σ.fail

end Sys

def Step (σ : Sys) (a : Act) (σ' : Sys) : Prop := σ.step a = some σ'

/-- The server has accepted the client. -/
def start (input : List Word) : Sys where
  client := .greeting input
  server := .greeting
  up := []
  down := []
  echoes := []
  log := []

/-! ## Every byte comes back in its place -/

def text (words : List Word) : List UInt8 := words.flatMap (·.text)

/-- What is still typed. -/
def Client.input : Client → List Word
  | .greeting input => input
  | .asking input => input
  | .waiting input => input
  | .closed => []

/-- What is still to be said before the words. -/
def Server.greets : Server → List UInt8
  | .greeting => welcome
  | _ => []

def Server.holds : Server → List UInt8
  | .sending got => got
  | .done unsent => unsent
  | _ => []

/-- The client waits for an answer. -/
def Client.Waits : Client → Prop
  | .greeting _ => True
  | .waiting _ => True
  | _ => False

structure Echoed (words : List Word) (σ : Sys) : Prop where
  order : σ.echoes.flatten ++ (σ.down ++ (σ.server.greets ++ (σ.server.holds ++ (σ.up ++
    text σ.client.input)))) = welcome ++ text words
  log : σ.log.flatten ++ (σ.up ++ text σ.client.input) = text words
  owed : σ.client.Waits → σ.down ++ (σ.server.greets ++ (σ.server.holds ++ σ.up)) ≠ []
  got : ∀ got, σ.server = .sending got → got ≠ []
  ended : ∀ unsent, σ.server = .done unsent → σ.client = .closed ∧ (unsent = [] → σ.up = [])

section
variable {words input : List Word} {σ σ' : Sys} {a : Act} {bytes : Nat} {l : List UInt8}

theorem shown_text (clean : 0 ∉ l) : shown l = l := by
  apply List.takeWhile_eq_self_iff.mpr
  intro b mem
  exact decide_eq_true fun zero : b = 0 => clean (zero ▸ mem)

theorem conversation_clean (words : List Word) : 0 ∉ welcome ++ text words := by
  rw [List.mem_append, not_or]
  refine ⟨by decide, fun mem => ?_⟩
  obtain ⟨word, _, mem⟩ := List.mem_flatMap.mp mem
  exact word.clean mem

/-- What is on its way is shown as it is. -/
theorem Echoed.shown_down (E : Echoed words σ) : shown (σ.down.take bytes) = σ.down.take bytes := by
  apply shown_text
  intro mem
  apply conversation_clean words
  rw [← E.order]
  exact List.mem_append_right _ (List.mem_append_left _ (List.mem_of_mem_take mem))

theorem Echoed.shown_up (E : Echoed words σ) : shown (σ.up.take bytes) = σ.up.take bytes := by
  apply shown_text
  intro mem
  apply conversation_clean words
  rw [← E.log]
  exact List.mem_append_right _
    (List.mem_append_right _ (List.mem_append_left _ (List.mem_of_mem_take mem)))

theorem Echoed.hear (E : Echoed words σ) (same : σ.client.input = input)
    (going : σ.client ≠ .closed) : Echoed words (σ.hear bytes input) := by
  have order := E.order
  have cut := List.take_append_drop bytes σ.down
  refine ⟨?_, ?_, fun waits => waits.elim, E.got, fun unsent done => ?_⟩
  · rw [same, ← cut] at order
    simp only [Sys.hear, E.shown_down, Client.input]
    simpa only [List.flatten_append, List.flatten_singleton, List.append_assoc] using order
  · simp only [Sys.hear, Client.input]
    rw [← same]
    exact E.log
  · exact absurd (E.ended unsent done).1 going

theorem Echoed.client (E : Echoed words σ) (step : σ.stepClient bytes = some σ') :
    Echoed words σ' := by
  have order := E.order
  have log := E.log
  unfold Sys.stepClient at step
  split at step
  · next input pc =>
    obtain ⟨_, step⟩ := Option.ite_none_right_eq_some.mp step
    cases step
    exact E.hear (by rw [pc]; rfl) (by simp [pc])
  · next word input pc =>
    rw [pc, Client.input, text, List.flatMap_cons] at order log
    cases step
    refine ⟨?_, ?_, fun _ => ?_, E.got, fun unsent done => ?_⟩
    · simpa only [Client.input, text, List.append_assoc] using order
    · simpa only [Client.input, text, List.append_assoc] using log
    · simp [word.nonempty]
    · simpa [pc] using (E.ended unsent done).1
  · next pc =>
    rw [pc] at order log
    cases step
    exact ⟨order, log, fun waits => waits.elim, E.got, fun unsent done =>
      ⟨rfl, (E.ended unsent done).2⟩⟩
  · next input pc =>
    obtain ⟨_, step⟩ := Option.ite_none_right_eq_some.mp step
    cases step
    exact E.hear (by rw [pc]; rfl) (by simp [pc])
  · cases step

theorem Echoed.server (E : Echoed words σ) (step : σ.stepServer bytes = some σ') :
    Echoed words σ' := by
  have order := E.order
  have log := E.log
  have owed := E.owed
  unfold Sys.stepServer at step
  split at step
  · next pc =>
    rw [pc] at order owed
    cases step
    refine ⟨?_, log, fun waits => ?_, by simp, by simp⟩
    · simpa only [Server.greets, Server.holds, List.append_assoc, List.nil_append] using order
    · simpa only [Server.greets, Server.holds, List.append_assoc, List.nil_append] using owed waits
  · next pc =>
    rw [pc] at order owed
    split at step
    · next closed drained =>
      cases step
      exact ⟨order, log, owed, by simp, fun unsent done => ⟨closed, fun _ => drained⟩⟩
    · obtain ⟨gets, step⟩ := Option.ite_none_right_eq_some.mp step
      have cut := List.take_append_drop bytes σ.up
      cases step
      refine ⟨?_, ?_, fun waits => ?_, fun got eq => ?_, by simp⟩
      · rw [← cut] at order
        simpa only [Server.greets, Server.holds, List.append_assoc, List.nil_append] using order
      · rw [← cut] at log
        simp only [E.shown_up]
        simpa only [List.flatten_append, List.flatten_singleton, List.append_assoc] using log
      · have some := owed waits
        rw [← cut] at some
        simpa only [Server.greets, Server.holds, List.append_assoc, List.nil_append] using some
      · cases eq
        have pos := gets.1
        have le := gets.2.1
        rw [← List.length_pos_iff, List.length_take]
        omega
  · next got pc =>
    rw [pc] at order owed
    cases step
    refine ⟨?_, log, fun waits => ?_, by simp, by simp⟩
    · simpa only [Server.greets, Server.holds, List.append_assoc, List.nil_append] using order
    · simpa only [Server.greets, Server.holds, List.append_assoc, List.nil_append] using owed waits
  · cases step

theorem Echoed.fail (E : Echoed words σ) (step : σ.fail = some σ') : Echoed words σ' := by
  have order := E.order
  have owed := E.owed
  unfold Sys.fail at step
  split at step
  · next got closed pc =>
    have some := E.got got pc
    rw [pc] at order owed
    cases step
    refine ⟨order, E.log, owed, by simp, fun unsent done => ⟨closed, fun none => ?_⟩⟩
    cases done
    exact absurd none some
  · cases step

theorem Echoed.step (E : Echoed words σ) (step : Step σ a σ') : Echoed words σ' := by
  cases a with
  | client bytes => exact E.client step
  | server bytes => exact E.server step
  | reset => exact E.fail step

theorem start_echoed (words : List Word) : Echoed words (start words) :=
  ⟨rfl, rfl, fun _ => by simp [start, Server.greets, welcome, chars], by simp [start],
    by simp [start]⟩

/-! ## Both sides end -/

def Client.work : Client → Nat
  | .closed => 0
  | c => 3 * (text c.input).length + c.input.length + 1

def Server.work : Server → Nat
  | .greeting => welcome.length + 2
  | .receiving => 1
  | .sending got => got.length + 2
  | .done _ => 0

def Sys.work (σ : Sys) : Nat :=
  σ.client.work + σ.server.work + 3 * σ.up.length + σ.down.length

theorem work_hear (gets : Gets bytes σ.down) (same : σ.client.work = (Client.asking input).work) :
    (σ.hear bytes input).work < σ.work := by
  obtain ⟨pos, le, _⟩ := gets
  simp only [Sys.hear, Sys.work, same, List.length_drop]
  omega

theorem work_step (step : Step σ a σ') : σ'.work < σ.work := by
  cases a with
  | client bytes =>
    simp only [Step, Sys.step, Sys.stepClient] at step
    split at step
    · next input pc =>
      obtain ⟨gets, step⟩ := Option.ite_none_right_eq_some.mp step
      cases step
      exact work_hear gets (by rw [pc]; rfl)
    · next word input pc =>
      cases step
      simp only [Sys.work, pc, Client.work, Client.input, text, List.flatMap_cons,
        List.length_append, List.length_cons]
      omega
    · next pc =>
      cases step
      simp only [Sys.work, pc, Client.work]
      omega
    · next input pc =>
      obtain ⟨gets, step⟩ := Option.ite_none_right_eq_some.mp step
      cases step
      exact work_hear gets (by rw [pc]; rfl)
    · cases step
  | server bytes =>
    simp only [Step, Sys.step, Sys.stepServer] at step
    split at step
    · next pc =>
      cases step
      simp only [Sys.work, pc, Server.work, List.length_append]
      omega
    · next pc =>
      split at step
      · cases step
        simp only [Sys.work, pc, Server.work]
        omega
      · obtain ⟨⟨pos, le, _⟩, step⟩ := Option.ite_none_right_eq_some.mp step
        cases step
        simp only [Sys.work, pc, Server.work, List.length_take, List.length_drop]
        omega
    · next got pc =>
      cases step
      simp only [Sys.work, pc, Server.work, List.length_append]
      omega
    · cases step
  | reset =>
    simp only [Step, Sys.step, Sys.fail] at step
    split at step
    · next got closed pc =>
      cases step
      simp only [Sys.work, pc, Server.work]
      omega
    · cases step

theorem gets_one (ne : l ≠ []) : Gets 1 l :=
  ⟨Nat.one_pos, List.length_pos_iff.mpr ne, by decide⟩

/-- The side that is waited for has a step. -/
theorem Echoed.steps (E : Echoed words σ)
    (going : ¬ (σ.client = .closed ∧ ∃ unsent, σ.server = .done unsent)) :
    ∃ a, (σ.step a).isSome = true := by
  have owed := E.owed
  cases server : σ.server with
  | greeting => exact ⟨.server 0, by simp [Sys.step, Sys.stepServer, server]⟩
  | sending got => exact ⟨.server 0, by simp [Sys.step, Sys.stepServer, server]⟩
  | done unsent => exact absurd ⟨(E.ended unsent server).1, unsent, server⟩ going
  | receiving =>
    by_cases drained : σ.up = []
    · rw [server, drained] at owed
      have down (waits : σ.client.Waits) : Gets 1 σ.down :=
        gets_one (by simpa [Server.greets, Server.holds] using owed waits)
      cases client : σ.client with
      | closed => exact ⟨.server 0, by simp [Sys.step, Sys.stepServer, server, client, drained]⟩
      | asking input =>
        refine ⟨.client 0, ?_⟩
        cases input <;> simp [Sys.step, Sys.stepClient, client]
      | greeting input | waiting input =>
        have gets := down (by rw [client]; trivial)
        exact ⟨.client 1, by simp [Sys.step, Sys.stepClient, client, gets]⟩
    · have gets := gets_one drained
      refine ⟨.server 1, ?_⟩
      simp only [Sys.step, Sys.stepServer, server]
      split
      · rfl
      · simp [gets]

end

/-- However the network cuts the streams, the client prints the welcome and the words it has
sent, in order, as far as they have come back; the server has printed every word when its loop
ends at the end of the stream; no side waits for ever, and the conversation ends. -/
theorem words_echoed (words : List Word) (acts : List Act) (σ : Sys)
    (run : Run Step (start words) acts σ) :
    σ.echoes.flatten <+: welcome ++ text words ∧ σ.log.flatten <+: text words ∧
    (σ.server = .done [] → σ.log.flatten = text words) ∧
    acts.length + σ.work ≤ 3 * (text words).length + words.length + 24 ∧
    (¬ (σ.client = .closed ∧ ∃ unsent, σ.server = .done unsent) →
      ∃ a, (σ.step a).isSome = true) := by
  have E : Echoed words σ :=
    run.invariant (start_echoed words) fun _ _ _ E step => E.step step
  refine ⟨⟨_, E.order⟩, ⟨_, E.log⟩, fun done => ?_, ?_, E.steps⟩
  · obtain ⟨closed, drained⟩ := E.ended [] done
    have log := E.log
    rw [drained rfl, closed] at log
    simpa [Client.input, text] using log
  · clear E
    induction run with
    | nil =>
      have length : welcome.length = 21 := by decide
      simp only [Sys.work, start, Client.work, Client.input, Server.work, length, List.length_nil]
      omega
    | snoc _ step ih =>
      have less := work_step step
      rw [List.length_append, List.length_singleton]
      omega

/-- `hi` -/
def hi : Word := ⟨[0x68, 0x69], by decide, by decide, by decide, by decide⟩

/-- The client has read a part of the welcome when it sends. -/
theorem hi_answered : ∃ σ, Run Step (start [hi]) [.server 0, .client 5, .client 0, .server 2] σ ∧
    σ.echoes.flatten <+: welcome ++ text [hi] ∧ ∃ a, (σ.step a).isSome = true := by
  have ran : ((execute Sys.step (start [hi]) [.server 0, .client 5, .client 0, .server 2]).map
      fun σ => σ.client.work) = some 1 := by
    decide +kernel
  obtain ⟨σ, ret, work⟩ := Option.map_eq_some_iff.mp ran
  have run : Run Step (start [hi]) [.server 0, .client 5, .client 0, .server 2] σ :=
    execute_run (fun _ _ _ step => step) ret
  have going : ¬ (σ.client = .closed ∧ ∃ unsent, σ.server = .done unsent) := by
    rintro ⟨closed, _⟩
    rw [closed] at work
    cases work
  obtain ⟨echoes, _, _, _, steps⟩ := words_echoed [hi] _ σ run
  exact ⟨σ, run, echoes, steps going⟩

end LearnC.Net.Echo
