import FastReplay.RingQueue
import FastReplay.RingBounds
import FastReplay.StaleReads
import FastReplay.PopViewRace
import FastReplay.Linearization
import FastReplay.RetainedSamples
import FastReplay.FailedAdd
import FastReplay.MemorySaving
import FastReplay.WholeSamples
import FastReplay.PopViewPops
import FastReplay.SampledSlots
import FastReplay.PlainSlice
import FastReplay.ViewLifetime
import FastReplay.StoreHistory
import FastReplay.SampleRace
import FastReplay.SizeRace
import FastReplay.EffectOrder
import FastReplay.SpscCalls
import FastReplay.SpscStanding
import FastReplay.SpscLinearized
import FastReplay.Progress
import FastReplay.SpscProgress
import FastReplay.LockedObject
import FastReplay.MutexBaseline
import FastReplay.SpinTransfer
import FastReplay.WeakCalls
import FastReplay.WeakReads
import FastReplay.WeakCopies
import FastReplay.WeakSizes
import FastReplay.DropIn
import FastReplay.ExposedMemory
import FastReplay.InteractionLaw
import FastReplay.SampleLaw
import FastReplay.TrainingLaw
import FastReplay.UnguardedHead
import FastReplay.LargeBuffer
