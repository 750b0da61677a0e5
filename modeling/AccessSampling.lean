import AccessSampling.Foundation.Machine
import AccessSampling.Foundation.Circular
import AccessSampling.EventCopy
import AccessSampling.SelfSampling
import AccessSampling.HandlerRuns
import AccessSampling.Stop
import AccessSampling.ReadOut
import AccessSampling.Locking
import AccessSampling.Advertised
import AccessSampling.ParseMetric
import AccessSampling.BufferSize
import AccessSampling.TraceDump
import AccessSampling.AtomicSection
import AccessSampling.HandlerEnds
import AccessSampling.StaysEnabled
import AccessSampling.Finalisation
import AccessSampling.Lossless
import AccessSampling.RingRefinement
import AccessSampling.Isolation
