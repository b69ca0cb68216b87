import HanabiBot.Endgame.Solve
import HanabiBot.Endgame.Plain
import HanabiBot.Endgame.BottomDeck
import HanabiBot.Basics.Rewind
import HanabiBot.SelfPlay
import HanabiBot.Tools.HandOff
import HanabiBot.HGroup.Focus
import HanabiBot.Drafting.Proxy
import HanabiBot.Drafting.CopyOnWrite
import HanabiBot.Elim.Conservative
import HanabiBot.Elim.Growth
import HanabiBot.Elim.Knowledge
import HanabiBot.Basics.Reset
import HanabiBot.Basics.Mutate
import HanabiBot.Basics.Trash
import HanabiBot.Endgame.Trivial
import HanabiBot.Endgame.Optimal
import HanabiBot.Endgame.Outcome
import HanabiBot.Endgame.Alike
import HanabiBot.Endgame.MustPlays
import HanabiBot.Endgame.Strikes
import HanabiBot.Endgame.Uniform
import HanabiBot.Elim.Restore
import HanabiBot.HGroup.PositionalDiscard
import HanabiBot.HGroup.LayeredFinesse
import HanabiBot.HGroup.OwnFinesses
import HanabiBot.HGroup.OrderChopMove
import HanabiBot.HGroup.CardZero
import HanabiBot.RefSieve.Connect
import HanabiBot.HGroup.Order1s
import HanabiBot.HGroup.OccamsRazor
import HanabiBot.Basics.Clues
import HanabiBot.Basics.Deal
import HanabiBot.Basics.EmpathyRun
import HanabiBot.Basics.ShortForms
import HanabiBot.Tools.ObjEquals
import HanabiBot.Shared.SpecialDiscards
import HanabiBot.Basics.HypoStacks
import HanabiBot.HGroup.FindConnecting
import HanabiBot.Lib.Ensures
import HanabiBot.Drafting.Patches
import HanabiBot.Drafting.Cards
import HanabiBot.Drafting.RootInv
import HanabiBot.Drafting.Finalize
import HanabiBot.Drafting.Replay
import HanabiBot.Basics.Refer
import HanabiBot.Basics.IdentitySet32
import HanabiBot.Endgame.Rate
import HanabiBot.Endgame.Cache
import HanabiBot.Endgame.Promise
import HanabiBot.Endgame.Considered
