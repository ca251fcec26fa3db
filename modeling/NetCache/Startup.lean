import NetCache.Arguments
import NetCache.Capacity
import NetCache.Transcript

/-!
# From the command line to the session

The server reads its command line, listens, accepts and greets (`serversockets.cpp:150-214`); the
constructor of the client connects and reads the greeting (`client.cc:37-71`). The two start in
any order, and a client that comes before the server listens, or to another port, fails.
`ready_iff` says that a launch that gets through is a session with a server of the capacity on the
command line, and `launch_delivers` what its calls return.
-/

namespace NetCache

open Lib Cache

/-- `PORT` (`client.cc:19`). -/
def clientPort : UInt16 := 6114

/-- `hello` (`serversockets.cpp:213`). -/
def greeting : Str := str "henlo"

theorem greeting_ne_nil : greeting ≠ [] := by decide

/-- How far `main` has come. -/
inductive ServerStage where
  | starting
  | listening
  | serving
  deriving DecidableEq

/-- How far the client's constructor has come: an assertion fails in it, or it returns. -/
inductive ClientStage where
  | starting
  | connected
  | ready
  | failed
  deriving DecidableEq

/-- Two processes and the connection that they share once there is one. -/
structure Launch where
  server : ServerStage
  client : ClientStage
  session : Session

namespace Launch

/-- Both processes before their first socket call. -/
def start (o : Options) : Launch := ⟨.starting, .starting, .start o.capacity⟩

/-- The server has accepted and sent its greeting. -/
def greeted (l : Launch) : Launch :=
  { l with
    server := .serving
    session := { l.session with toClient := l.session.toClient ++ greeting } }

/-- The constructor has received what is pending, and returns. -/
def welcomed (l : Launch) : Launch :=
  { l with
    client := .ready
    session := { l.session with toClient := l.session.toClient.drop maxMessageSize } }

/-- One step of either process. A socket call that fails ends its process, and is a launch that
goes no further. -/
inductive Step (o : Options) : Launch → Launch → Prop
  /-- `bind` and `listen`. -/
  | listen {l : Launch} (hserver : l.server = .starting) : Step o l { l with server := .listening }
  /-- `connect` finds the server. -/
  | connect {l : Launch} (hclient : l.client = .starting) (hserver : l.server ≠ .starting)
      (hport : o.port = clientPort) : Step o l { l with client := .connected }
  /-- `connect` finds nobody. -/
  | refuse {l : Launch} (hclient : l.client = .starting)
      (hnobody : l.server = .starting ∨ o.port ≠ clientPort) :
      Step o l { l with client := .failed }
  /-- `accept` and the greeting. -/
  | accept {l : Launch} (hserver : l.server = .listening) (hclient : l.client = .connected) :
      Step o l l.greeted
  /-- The `recv` of the constructor. -/
  | greet {l : Launch} (hclient : l.client = .connected) (hpending : l.session.toClient ≠ []) :
      Step o l l.welcomed
  /-- A step of the loop: those that leave the client waiting, or not waiting, as it was. -/
  | loop {l : Launch} {st : Session} (hserver : l.server = .serving)
      (hstep : Session.Step l.session st) (hwaiting : st.waiting = l.session.waiting) :
      Step o l { l with session := st }
  /-- A step of a call. -/
  | call {l : Launch} {st : Session} (hclient : l.client = .ready)
      (hstep : Session.Step l.session st) (hwaiting : st.waiting ≠ l.session.waiting) :
      Step o l { l with session := st }

/-- The launches that the command line `argv` of the server can lead to. -/
def Reachable (argv : List Str) (l : Launch) : Prop :=
  ∃ o, parseArguments argv = .ok o ∧ Relation.ReflTransGen (Step o) (start o) l

/-- The stages of a launch. -/
inductive Stage (o : Options) (l : Launch) : Prop
  | alone (hserver : l.server ≠ .serving) (hclient : l.client = .starting ∨ l.client = .failed)
      (hsession : l.session = .start o.capacity)
  | connected (hserver : l.server = .listening) (hclient : l.client = .connected)
      (hport : o.port = clientPort) (hsession : l.session = .start o.capacity)
  | greeted (hserver : l.server = .serving) (hclient : l.client = .connected)
      (hport : o.port = clientPort)
      (hsession : l.session = { Session.start o.capacity with toClient := greeting })
  | ready (hserver : l.server = .serving) (hclient : l.client = .ready)
      (hport : o.port = clientPort) (hsession : Session.Reachable o.capacity l.session)

variable {o : Options} {l l' : Launch}

/-- Until the first call the loop has nothing to do. -/
theorem not_loop {maxmem : UInt32} {pending : Str} {st : Session}
    (hstep : Session.Step { Session.start maxmem with toClient := pending } st) :
    st.waiting ≠ none := by
  cases hstep with
  | call hidle hmsg => exact Option.some_ne_none _
  | recv hrunning hfree hpending => exact absurd rfl hpending
  | answer hheld => cases hheld
  | finish hwaiting => cases hwaiting

theorem Stage.step (h : Stage o l) (hstep : Step o l l') : Stage o l' := by
  cases h with
  | alone hserver hclient hsession =>
    cases hstep with
    | listen _ => exact .alone (by simp) hclient hsession
    | connect hstarting hlisten hport =>
      refine .connected ?_ rfl hport hsession
      cases hs : l.server with
      | starting => exact absurd hs hlisten
      | listening => rfl
      | serving => exact absurd hs hserver
    | refuse _ _ => exact .alone hserver (.inr rfl) hsession
    | accept _ hconnected => simp [hconnected] at hclient
    | greet hconnected _ => simp [hconnected] at hclient
    | loop hserving _ _ => exact absurd hserving hserver
    | call hready _ _ => simp [hready] at hclient
  | connected hserver hclient hport hsession =>
    cases hstep with
    | listen hstarting => cases hserver.symm.trans hstarting
    | connect hstarting _ _ => cases hclient.symm.trans hstarting
    | refuse hstarting _ => cases hclient.symm.trans hstarting
    | accept _ _ =>
      refine .greeted rfl hclient hport ?_
      simp only [Launch.greeted, hsession]
      rfl
    | greet _ hpending => exact absurd (congrArg Session.toClient hsession) hpending
    | loop hserving _ _ => cases hserver.symm.trans hserving
    | call hready _ _ => cases hclient.symm.trans hready
  | greeted hserver hclient hport hsession =>
    cases hstep with
    | listen hstarting => cases hserver.symm.trans hstarting
    | connect hstarting _ _ => cases hclient.symm.trans hstarting
    | refuse hstarting _ => cases hclient.symm.trans hstarting
    | accept hlistening _ => cases hserver.symm.trans hlistening
    | greet _ _ =>
      refine .ready hserver rfl hport ?_
      simp only [Launch.welcomed, hsession]
      exact .refl
    | loop _ hst hwaiting =>
      rw [hsession] at hst hwaiting
      exact absurd hwaiting (not_loop hst)
    | call hready _ _ => cases hclient.symm.trans hready
  | ready hserver hclient hport hsession =>
    cases hstep with
    | listen hstarting => cases hserver.symm.trans hstarting
    | connect hstarting _ _ => cases hclient.symm.trans hstarting
    | refuse hstarting _ => cases hclient.symm.trans hstarting
    | accept hlistening _ => cases hserver.symm.trans hlistening
    | greet hconnected _ => cases hclient.symm.trans hconnected
    | loop _ hst _ => exact .ready hserver hclient hport (hsession.tail hst)
    | call _ hst _ => exact .ready hserver hclient hport (hsession.tail hst)

theorem stage_of_steps (h : Relation.ReflTransGen (Step o) (start o) l) : Stage o l := by
  induction h with
  | refl => exact .alone (by simp [start]) (.inl rfl) rfl
  | tail _ hstep ih => exact ih.step hstep

/-- The steps of a launch that gets through. -/
theorem steps_ready (hport : o.port = clientPort) :
    Relation.ReflTransGen (Step o) (start o) ⟨.serving, .ready, .start o.capacity⟩ := by
  have hlisten := Relation.ReflTransGen.single (@Step.listen o (start o) rfl)
  have hconnect := hlisten.tail (.connect rfl (by simp) hport)
  have haccept := hconnect.tail (.accept rfl rfl)
  exact haccept.tail (.greet rfl greeting_ne_nil)

/-- Both parties of a session that is under way can take their steps. -/
theorem steps_of_session (hport : o.port = clientPort) {st : Session}
    (h : Session.Reachable o.capacity st) :
    Relation.ReflTransGen (Step o) (start o) ⟨.serving, .ready, st⟩ := by
  induction h with
  | refl => exact steps_ready hport
  | @tail st st' _ hstep ih =>
    by_cases hwaiting : st'.waiting = st.waiting
    · exact ih.tail (.loop rfl hstep hwaiting)
    · exact ih.tail (.call rfl hstep hwaiting)

theorem session_of_ready (h : Relation.ReflTransGen (Step o) (start o) l)
    (hready : l.client = .ready) :
    o.port = clientPort ∧ Session.Reachable o.capacity l.session := by
  cases stage_of_steps h with
  | alone _ hclient => simp [hready] at hclient
  | connected _ hclient => cases hready.symm.trans hclient
  | greeted _ hclient => cases hready.symm.trans hclient
  | ready _ _ hport hsession => exact ⟨hport, hsession⟩

/-- The states of a connection whose client is ready are exactly the sessions with a server of the
capacity on the command line, if that names the client's port; on another port there are none. -/
theorem ready_iff (argv : List Str) (st : Session) :
    (∃ l, Reachable argv l ∧ l.client = .ready ∧ l.session = st) ↔
      ∃ o, parseArguments argv = .ok o ∧ o.port = clientPort ∧
        Session.Reachable o.capacity st := by
  constructor
  · rintro ⟨l, ⟨o, hargs, hsteps⟩, hready, rfl⟩
    exact ⟨o, hargs, session_of_ready hsteps hready⟩
  · rintro ⟨o, hargs, hport, hst⟩
    exact ⟨_, ⟨o, hargs, steps_of_session hport hst⟩, rfl, rfl⟩

/-- The steps that a launch has before it. -/
def ahead (l : Launch) : Nat :=
  (match l.server with | .starting => 2 | .listening => 1 | .serving => 0) +
    (match l.client with | .starting => 2 | .connected => 1 | _ => 0)

/-- The end of a launch: the client has failed, or the session begins. -/
def Settled (o : Options) (l : Launch) : Prop :=
  l.client = .failed ∨ l.client = .ready ∧ o.port = clientPort ∧ l.session = .start o.capacity

/-- A launch that has not settled goes on, and every step brings it closer. -/
theorem Stage.progress (h : Stage o l) (hready : l.client ≠ .ready) (hfailed : l.client ≠ .failed) :
    (∃ l', Step o l l') ∧ ∀ l', Step o l l' → ahead l' < ahead l ∧
      (l'.client = .ready → Settled o l') := by
  cases h with
  | alone hserver hclient hsession =>
    have hstarting := hclient.resolve_right hfailed
    constructor
    · by_cases hnobody : l.server = .starting ∨ o.port ≠ clientPort
      · exact ⟨_, .refuse hstarting hnobody⟩
      · rw [not_or, not_not] at hnobody
        exact ⟨_, .connect hstarting hnobody.1 hnobody.2⟩
    · intro l' hstep
      cases hstep with
      | listen hs => simp [ahead, hs, hstarting]
      | connect => simp [ahead, hstarting]
      | refuse => simp [ahead, hstarting]
      | accept _ hconnected => cases hstarting.symm.trans hconnected
      | greet hconnected => cases hstarting.symm.trans hconnected
      | loop hserving => exact absurd hserving hserver
      | call hready' => exact absurd hready' hready
  | connected hserver hclient hport hsession =>
    refine ⟨⟨_, .accept hserver hclient⟩, ?_⟩
    intro l' hstep
    cases hstep with
    | listen hs => cases hserver.symm.trans hs
    | connect hs => cases hclient.symm.trans hs
    | refuse hs => cases hclient.symm.trans hs
    | accept => simp [ahead, Launch.greeted, hserver, hclient]
    | greet _ hpending => exact absurd (congrArg Session.toClient hsession) hpending
    | loop hserving => cases hserver.symm.trans hserving
    | call hready' => exact absurd hready' hready
  | greeted hserver hclient hport hsession =>
    have hpending : l.session.toClient ≠ [] := hsession ▸ greeting_ne_nil
    refine ⟨⟨_, .greet hclient hpending⟩, ?_⟩
    intro l' hstep
    cases hstep with
    | listen hs => cases hserver.symm.trans hs
    | connect hs => cases hclient.symm.trans hs
    | refuse hs => cases hclient.symm.trans hs
    | accept hs => cases hserver.symm.trans hs
    | greet =>
      refine ⟨by simp [ahead, Launch.welcomed, hserver, hclient], fun _ => .inr ⟨rfl, hport, ?_⟩⟩
      simp only [Launch.welcomed, hsession]
      rfl
    | loop _ hst hwaiting =>
      rw [hsession] at hst hwaiting
      exact absurd hwaiting (not_loop hst)
    | call hready' => exact absurd hready' hready
  | ready _ hclient => exact absurd hclient hready

/-- In whatever order the two processes start and take their steps, the client cannot avoid that
its constructor fails or that the session begins, and it fails if the port is not its own. -/
theorem launch_settles (o : Options) : Inevitable (Step o) (Settled o) (start o) := by
  refine .of_variant (fun l => Relation.ReflTransGen (Step o) (start o) l ∧
    (l.client = .ready → Settled o l)) ahead ?_ ⟨.refl, fun h => nomatch h⟩
  rintro l ⟨hsteps, hsettled⟩ hnot
  have hready : l.client ≠ .ready := fun h => hnot (hsettled h)
  obtain ⟨hsome, hall⟩ := (stage_of_steps hsteps).progress hready fun h => hnot (.inl h)
  refine ⟨hsome, fun l' hstep => ?_⟩
  obtain ⟨hahead, hl'⟩ := hall l' hstep
  exact ⟨⟨hsteps.tail hstep, hl'⟩, hahead⟩

/-- What the calls of a session show, if every one of them is carried: those that are over have
returned what an exact LRU cache of the given capacity returns on the calls delivered, and the one
under way cannot fail to return exactly if the counts of used bytes so far are clean. -/
def ShowsExact (o : Options) (st : Session) : Prop :=
  ∀ ops rets, Session.Runs o.capacity st ops rets → (∀ op ∈ ops, Carried op) →
    let answers := lruAnswers (exact o.maxmem.toInt.toNat) ∅ (ops.map delivered)
    rets <+: answers ∧ (st.waiting = none → rets = answers) ∧ CountsClean rets ∧
      (Inevitable Session.Step (fun st' => st'.waiting = none ∧
        Session.Runs o.capacity st' ops answers) st ↔ CountsClean answers)

/-- A client that is ready has a session with a transcript, and for a command line with a capacity
that is not negative it sees an exact LRU cache of this capacity, however the steps interleave. -/
theorem launch_delivers {argv : List Str} (h : Reachable argv l) (hready : l.client = .ready) :
    ∃ o, parseArguments argv = .ok o ∧ (∃ ops rets, Session.Runs o.capacity l.session ops rets) ∧
      (0 ≤ o.maxmem.toInt → ShowsExact o l.session) := by
  obtain ⟨o, hargs, hsteps⟩ := h
  obtain ⟨-, hsession⟩ := session_of_ready hsteps hready
  refine ⟨o, hargs, Session.reachable_iff.mp hsession, ?_⟩
  intro hpos ops rets hruns hops answers
  obtain ⟨cache, hlocal, -⟩ := Exact.run ((o.capacity_lt_iff).mpr hpos) (ops.map delivered)
  rw [Options.capacity_toNat hpos] at hlocal
  obtain ⟨hbeside, hclean⟩ := hruns.beside hops hlocal
  exact ⟨hbeside.rets_prefix, fun hidle => (hbeside.idle_eq hidle).symm, hclean,
    hruns.returns_iff hops hlocal⟩

/-- A server with the capacity 12, and a client that has begun a `set`, which cannot fail to
return 0. -/
theorem launch_delivers_twelve : ∃ l : Launch, Reachable [str "server", str "-m", str "12"] l ∧
    l.client = .ready ∧ l.session.waiting = some (.set (str "a") (stringToVal (str "b"))) ∧
      Inevitable Session.Step (fun st' => st'.waiting = none ∧
        Session.Runs 12 st' [.set (str "a") (stringToVal (str "b"))] [.code 0]) l.session := by
  have hargs : parseArguments [str "server", str "-m", str "12"] = .ok ⟨12, 6114⟩ := by decide
  have hcall := @Session.Step.call (.start 12) (.set (str "a") (stringToVal (str "b"))) _ rfl rfl
  have hruns : Session.Runs 12 _ [.set (str "a") (stringToVal (str "b"))] [] :=
    Session.Runs.start.call rfl rfl
  have hreach : Reachable [str "server", str "-m", str "12"] _ := ⟨⟨12, 6114⟩, hargs,
    (steps_ready (o := ⟨12, 6114⟩) rfl).tail (.call rfl hcall (Option.some_ne_none _))⟩
  obtain ⟨o, hargs', -, hshows⟩ := launch_delivers hreach rfl
  cases hargs.symm.trans hargs'
  obtain ⟨-, -, -, hreturns⟩ := hshows (by decide) _ _ hruns (by decide)
  have hanswers : lruAnswers (exact (12 : Int32).toInt.toNat) ∅
      ([.set (str "a") (stringToVal (str "b"))].map delivered) = [.code 0] := by decide
  rw [hanswers] at hreturns
  exact ⟨_, hreach, rfl, rfl, hreturns.mpr (countsClean_of_ne (by simp))⟩

end Launch

end NetCache
